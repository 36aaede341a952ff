import ScriptEngine.Proofs.Compiler.Constructs

/-!
# Layouts of generated code

The walk of the compiler keeps the layouts: the code of an expression leaves one value on any
layout, the code of a statement leaves one value where no others stand, and loop exits reach their
loop with its own scopes open. Both follow the recursion of the walk.
-/

namespace ScriptEngine

namespace Fragment

theorem length_binary (span : Span) (op : Text) (f g : Fragment) :
    f.length + g.length ≤ (binary span op f g).length := by
  unfold binary
  dsimp only
  rw [length_mark]
  split
  · simp only [length_append, length_emit]
    omega
  split
  · simp only [length_append, length_emit]
    omega
  · simp only [length_append, length_emit]
    omega

theorem length_inScope (f : Fragment) : (inScope f).length = f.length + 2 := by
  simp only [inScope, length_emit, length_append, length_ofCode, List.length_singleton]
  omega

/-- A loop is longer than its parts together. -/
theorem length_loop (init : Fragment) (cond : Option Fragment) (body step : Fragment) :
    init.length + body.length + step.length ≤ (loop init cond body step).length ∧
      ∀ c, cond = some c →
        init.length + c.length + body.length + step.length ≤ (loop init cond body step).length := by
  constructor
  · simp only [loop, length_emit, length_append, length_resolve]
    omega
  · intro c hc
    subst hc
    simp only [loop, length_emit, length_append, length_resolve]
    omega

theorem length_function (f : Fragment) (n : Nat) (selfType : Text) (body : Fragment) :
    f.length + body.length + 2 ≤ (function f n selfType body).length := by
  unfold function
  dsimp only
  split <;> simp <;> omega

/-- A chain is at least as long as each of its arms. -/
theorem length_arms {branches : List (Fragment × Fragment)} {other : Option Fragment}
    {arm : Fragment × Fragment} (harm : arm ∈ branches) :
    arm.1.length + arm.2.length ≤ (arms branches other).length := by
  induction branches with
  | nil => exact absurd harm List.not_mem_nil
  | cons head rest ih =>
    obtain ⟨cond, body⟩ := head
    rcases List.mem_cons.mp harm with rfl | harm
    · cases rest with
      | nil =>
        cases other with
        | none => simp [arms]
        | some b =>
          simp [arms]
          omega
      | cons => simp [arms]; omega
    · have hrest := ih harm
      cases rest with
      | nil => exact absurd harm List.not_mem_nil
      | cons => simp only [arms, length_append, length_emit] at *; omega

theorem length_arms_other {branches : List (Fragment × Fragment)} {other : Fragment} :
    other.length ≤ (arms branches (some other)).length := by
  induction branches with
  | nil => exact Nat.le_refl _
  | cons head rest ih =>
    obtain ⟨cond, body⟩ := head
    simp only [arms, length_append]
    omega

end Fragment

namespace Compiler

theorem bind_ok {α β : Type} {x : Gen α} {k : α → Gen β} {p p' : Progress} {b : β}
    (h : (x >>= k) p = .ok b p') : ∃ a p₁, x p = .ok a p₁ ∧ k a p₁ = .ok b p' := by
  have h : EStateM.bind x k p = .ok b p' := h
  unfold EStateM.bind at h
  cases hx : x p with
  | ok a s =>
    rw [hx] at h
    exact ⟨a, s, rfl, h⟩
  | error e s =>
    rw [hx] at h
    cases h

theorem pure_ok {α : Type} {a b : α} {p p' : Progress} (h : (pure a : Gen α) p = .ok b p') :
    a = b ∧ p = p' := by
  cases h
  exact ⟨rfl, rfl⟩

namespace Place

/-- The layout of an activation in front of a statement at the place: nothing on the stack, and the
scopes open that the place counts. -/
structure Admits (place : Place) (a : Layout) : Prop where
  slots : a.slots = []
  scopes : a.scopes = place.depth
  loop : ∀ n, place.loop = some n → n ≤ place.depth

/-- The layout that the exits of the loop around the place expect. -/
def around (place : Place) (a : Layout) : Option Layout :=
  place.loop.map fun n => { a with scopes := n }

variable {place : Place} {a : Layout}

theorem admits_entry : Place.top.Admits .entry :=
  ⟨rfl, rfl, fun _ h => by cases h⟩

theorem admits_top : Place.top.Admits .top :=
  ⟨rfl, rfl, fun _ h => by cases h⟩

theorem Admits.inScope (h : place.Admits a) : place.inScope.Admits a.enter where
  slots := h.slots
  scopes := congrArg (· + 1) h.scopes
  loop n hn := Nat.le_succ_of_le (h.loop n hn)

theorem Admits.inLoop (h : place.Admits a) : place.inLoop.Admits a.enter.enter where
  slots := h.slots
  scopes := congrArg (· + 2) h.scopes
  loop n hn := by
    cases hn
    exact Nat.le_succ _

theorem Admits.around_inLoop (h : place.Admits a) :
    place.inLoop.around a.enter.enter = some a.enter := by
  show some ({ a with scopes := place.depth + 1 } : Layout) = some { a with scopes := a.scopes + 1 }
  rw [h.scopes]

/-- A loop exit at the place closes as many scopes as lie inside the loop. -/
theorem Admits.exit (h : place.Admits a) {b : Layout} (again : Bool) :
    (Fragment.exit again place.closes).Takes a b (place.around a) := by
  obtain ⟨depth, loop⟩ := place
  cases loop with
  | none =>
    cases again
    · exact .halt (Instruction.stands_bare rfl) .stray
    · exact .halt (Instruction.stands_bare rfl) .stray
  | some n =>
    have hscopes : a.scopes = depth := h.scopes
    have hn : n ≤ depth := h.loop n rfl
    have hexit := @Fragment.Takes.exit a b again (depth - n) (by omega)
    rw [show a.scopes - (depth - n) = n by omega] at hexit
    exact hexit

end Place

theorem length_repeatLoop (span : Span) (count body : Fragment) :
    count.length + body.length ≤ (repeatLoop span count body).length := by
  simp only [repeatLoop, Fragment.loop, Fragment.length_mark, Fragment.length_emit,
    Fragment.length_append, Fragment.length_resolve]
  omega

theorem length_eachLoop (span : Span) (name : Text) (source stmts : Fragment) :
    source.length + stmts.length ≤ (eachLoop span name source stmts).length := by
  simp only [eachLoop, Fragment.loop, Fragment.length_mark, Fragment.length_emit,
    Fragment.length_append, Fragment.length_resolve, Fragment.length_inScope, assignStmt,
    Fragment.assign, Fragment.call, Fragment.member, Fragment.discard]
  omega

/-- A selection is longer than its subject, than each of its cases, and than what is done if none
of them holds. -/
theorem length_selectChain (span : Span) (subject : Fragment) (cases : List (Fragment × Fragment))
    (other : Option Fragment) :
    subject.length ≤ (selectChain span subject cases other).length ∧
      (∀ arm ∈ cases,
        arm.1.length + arm.2.length ≤ (selectChain span subject cases other).length) ∧
      ∀ f, other = some f → f.length ≤ (selectChain span subject cases other).length := by
  simp only [selectChain, Fragment.length_mark, Fragment.length_emit, Fragment.length_append]
  refine ⟨by omega, ?_, ?_⟩
  · intro arm harm
    have harms := @Fragment.length_arms cases other arm harm
    have hsome : cases.isEmpty = false := by
      cases cases with
      | nil => exact absurd harm List.not_mem_nil
      | cons => rfl
    rw [hsome]
    simp only [Bool.false_eq_true, if_false, Fragment.discard, Fragment.chain,
      Fragment.length_emit]
    omega
  · intro f hf
    subst hf
    have harms := @Fragment.length_arms_other cases f
    split
    · simp only [Option.getD_some]
      omega
    · simp only [Fragment.discard, Fragment.chain, Fragment.length_emit]
      omega

theorem takes_importStmt {linker : Linker} {s : Span} {path : Text} {names : List Text}
    {p p' : Progress} {f : Fragment} {a : Layout} {x : Option Layout}
    (h : importStmt linker s path names p = .ok f p') : f.Takes a (a.push .value) x := by
  unfold importStmt at h
  cases linker with
  | absent | closed =>
    obtain ⟨_, p₁, -, h⟩ := bind_ok h
    obtain ⟨rfl, -⟩ := pure_ok h
    exact .linked .empty (by decide) s
  | modules =>
    obtain ⟨rfl, -⟩ := pure_ok h
    exact .linked (.importCode s path names) (by decide) s

theorem takes_exportStmt {linker : Linker} {s : Span} {names : List Text} {p p' : Progress}
    {f : Fragment} {a : Layout} {x : Option Layout}
    (h : exportStmt linker s names p = .ok f p') : f.Takes a (a.push .value) x := by
  unfold exportStmt at h
  cases linker with
  | absent | closed =>
    obtain ⟨_, p₁, -, h⟩ := bind_ok h
    obtain ⟨rfl, -⟩ := pure_ok h
    exact .linked .empty (by decide) s
  | modules =>
    obtain ⟨progress, p₁, -, h⟩ := bind_ok h
    obtain ⟨_, p₂, -, h⟩ := bind_ok h
    obtain ⟨rfl, -⟩ := pure_ok h
    exact .linked (.exportCode s _ names) (by decide) s

/-!
# The walk

Code that no memory could hold is left out, so that every count in it can be announced. A statement
that returns may lead anywhere, since control never gets behind it.
-/

mutual

theorem takes_expr {linker : Linker} : ∀ (e : Expr) {p p' : Progress} {f : Fragment},
    expr linker e p = .ok f p' → f.length ≤ Slot.limit → ∀ a, f.Takes a (a.push .value) none
  | .number s x, p, p', f, h, _, a => by
    rw [expr] at h
    obtain ⟨rfl, -⟩ := pure_ok h
    exact .number s x
  | .text s t, p, p', f, h, _, a => by
    rw [expr] at h
    obtain ⟨rfl, -⟩ := pure_ok h
    exact .text s t
  | .boolean s b, p, p', f, h, _, a => by
    rw [expr] at h
    obtain ⟨rfl, -⟩ := pure_ok h
    exact .boolean s b
  | .null s, p, p', f, h, _, a => by
    rw [expr] at h
    obtain ⟨rfl, -⟩ := pure_ok h
    exact .null s
  | .var s name, p, p', f, h, _, a => by
    rw [expr] at h
    obtain ⟨rfl, -⟩ := pure_ok h
    exact .var s name
  | .list s items, p, p', f, h, hlen, a => by
    rw [expr] at h
    obtain ⟨g, p₁, hg, h⟩ := bind_ok h
    obtain ⟨rfl, -⟩ := pure_ok h
    simp only [Fragment.list, Fragment.length_mark, Fragment.length_emit] at hlen
    obtain ⟨hcount, htakes⟩ := takes_exprsBackward items hg (by omega)
    exact (htakes a).list (by omega) s
  | .dict s entries, p, p', f, h, hlen, a => by
    rw [expr] at h
    obtain ⟨g, p₁, hg, h⟩ := bind_ok h
    obtain ⟨rfl, -⟩ := pure_ok h
    simp only [Fragment.dict, Fragment.length_mark, Fragment.length_emit] at hlen
    obtain ⟨hcount, htakes⟩ := takes_entriesBackward entries hg (by omega)
    exact (htakes a).dict (by omega) s
  | .binary s op left right, p, p', f, h, hlen, a => by
    rw [expr] at h
    obtain ⟨l, p₁, hl, h⟩ := bind_ok h
    obtain ⟨r, p₂, hr, h⟩ := bind_ok h
    obtain ⟨rfl, -⟩ := pure_ok h
    have hparts := Fragment.length_binary s op l r
    have hleft := takes_expr left hl (by omega)
    have hright := takes_expr right hr (by omega)
    exact (hleft a).binary (hright a) (hright _) s op
  | .unary s op operand, p, p', f, h, hlen, a => by
    rw [expr] at h
    obtain ⟨g, p₁, hg, h⟩ := bind_ok h
    obtain ⟨rfl, -⟩ := pure_ok h
    simp only [Fragment.unary, Fragment.length_mark, Fragment.length_emit] at hlen
    exact (takes_expr operand hg (by omega) a).unary s op
  | .assign s target value scope, p, p', f, h, hlen, a => by
    rw [expr] at h
    obtain ⟨v, p₁, hv, h⟩ := bind_ok h
    obtain ⟨t, p₂, ht, h⟩ := bind_ok h
    obtain ⟨rfl, -⟩ := pure_ok h
    cases t with
    | none =>
      simp only [Fragment.assign, Fragment.length_mark] at hlen
      exact (takes_expr value hv (by omega) a).mark a.gains_push (absurd · (by decide)) _
    | some t =>
      simp only [Fragment.assign, Fragment.length_mark, Fragment.length_emit,
        Fragment.length_append] at hlen
      exact (takes_expr value hv (by omega) a).assign
        (takes_assignTarget target ht (by omega) (a.push .value)) s scope
  | .call s callee args, p, p', f, h, hlen, a => by
    rw [expr] at h
    obtain ⟨g, p₁, hg, h⟩ := bind_ok h
    obtain ⟨c, p₂, hc, h⟩ := bind_ok h
    obtain ⟨rfl, -⟩ := pure_ok h
    simp only [Fragment.call, Fragment.length_mark, Fragment.length_emit,
      Fragment.length_append] at hlen
    obtain ⟨hcount, htakes⟩ := takes_exprs args hg (by omega)
    exact (htakes a).call (by omega) (takes_expr callee hc (by omega) _) s
  | .member s object name, p, p', f, h, hlen, a => by
    rw [expr] at h
    obtain ⟨g, p₁, hg, h⟩ := bind_ok h
    obtain ⟨rfl, -⟩ := pure_ok h
    simp only [Fragment.member, Fragment.length_mark, Fragment.length_emit] at hlen
    exact (takes_expr object hg (by omega) a).member s name
  | .index s object key, p, p', f, h, hlen, a => by
    rw [expr] at h
    obtain ⟨o, p₁, ho, h⟩ := bind_ok h
    obtain ⟨k, p₂, hk, h⟩ := bind_ok h
    obtain ⟨rfl, -⟩ := pure_ok h
    simp only [Fragment.index, Fragment.length_mark, Fragment.length_emit,
      Fragment.length_append] at hlen
    exact (takes_expr object ho (by omega) a).index (takes_expr key hk (by omega) _) s
  | .func s name params body, p, p', f, h, hlen, a => by
    rw [expr] at h
    obtain ⟨_, p₁, -, h⟩ := bind_ok h
    obtain ⟨ps, p₂, hps, h⟩ := bind_ok h
    obtain ⟨b, p₃, hb, h⟩ := bind_ok h
    obtain ⟨rfl, -⟩ := pure_ok h
    have hparts := Fragment.length_function ps params.length Text.empty b
    have hshort : ps.length + b.length + 2 ≤ Slot.limit := by
      rw [Fragment.length_mark] at hlen
      split at hlen
      · omega
      · rw [Fragment.length_emit] at hlen
        omega
    obtain ⟨hcount, htakes⟩ := takes_paramsBackward params hps (by omega)
    have hfunction : (Fragment.function ps params.length Text.empty b).Takes a (a.push .value)
        none :=
      (htakes a).function (by omega) (takes_functionBody body hb (by omega) _)
    refine Fragment.Takes.mark ?_ a.gains_push (absurd · (by decide)) _
    split
    · exact hfunction
    · exact hfunction.emit (.bindTop name .nearest)
  | .missing, p, p', f, h, _, a => by
    rw [expr] at h
    cases h

theorem takes_assignTarget {linker : Linker} : ∀ (e : Expr) {p p' : Progress} {f : Fragment},
    assignTarget linker e p = .ok (some f) p' → f.length ≤ Slot.limit →
      ∀ a, Fragment.Takes.Targets f a none
  | .var _ name, p, p', f, h, _, a => by
    rw [assignTarget] at h
    obtain ⟨hf, -⟩ := pure_ok h
    cases hf
    exact Fragment.Takes.targets_var name
  | .member _ object name, p, p', f, h, hlen, a => by
    rw [assignTarget] at h
    obtain ⟨o, p₁, ho, h⟩ := bind_ok h
    obtain ⟨hf, -⟩ := pure_ok h
    cases hf
    rw [Fragment.length_emit] at hlen
    exact Fragment.Takes.targets_member (takes_expr object ho (by omega) a) name
  | .index _ object key, p, p', f, h, hlen, a => by
    rw [assignTarget] at h
    obtain ⟨o, p₁, ho, h⟩ := bind_ok h
    obtain ⟨k, p₂, hk, h⟩ := bind_ok h
    obtain ⟨hf, -⟩ := pure_ok h
    cases hf
    rw [Fragment.length_append] at hlen
    exact Or.inr ((takes_expr object ho (by omega) a).append (takes_expr key hk (by omega) _))
  | .missing, p, p', f, h, _, _ => by
    rw [assignTarget] at h
    cases h
  | .number .., p, p', f, h, _, _ | .text .., p, p', f, h, _, _ | .boolean .., p, p', f, h, _, _
  | .null .., p, p', f, h, _, _ | .list .., p, p', f, h, _, _ | .dict .., p, p', f, h, _, _
  | .binary .., p, p', f, h, _, _ | .unary .., p, p', f, h, _, _ | .assign .., p, p', f, h, _, _
  | .call .., p, p', f, h, _, _ | .func .., p, p', f, h, _, _ => by
    -- nothing else can be assigned to, and no target is generated
    simp only [assignTarget] at h
    obtain ⟨_, p₁, -, h⟩ := bind_ok h
    cases (pure_ok h).1

theorem takes_exprs {linker : Linker} : ∀ (es : List Expr) {p p' : Progress} {f : Fragment},
    exprs linker es p = .ok f p' → f.length ≤ Slot.limit → es.length ≤ f.length ∧
      ∀ a, f.Takes a (a.pushAll (.replicate es.length .value)) none
  | [], p, p', f, h, _ => by
    rw [exprs] at h
    obtain ⟨rfl, -⟩ := pure_ok h
    exact ⟨Nat.le_refl _, fun _ => .empty⟩
  | e :: rest, p, p', f, h, hlen => by
    rw [exprs] at h
    obtain ⟨g, p₁, hg, h⟩ := bind_ok h
    obtain ⟨k, p₂, hk, h⟩ := bind_ok h
    obtain ⟨rfl, -⟩ := pure_ok h
    rw [Fragment.length_append] at hlen
    have hhead := takes_expr e hg (by omega)
    obtain ⟨hcount, htail⟩ := takes_exprs rest hk (by omega)
    refine ⟨?_, fun a => ?_⟩
    · have hpos := (hhead .top).length_pos
      rw [Fragment.length_append, List.length_cons]
      omega
    · rw [List.length_cons, List.replicate_succ', Layout.pushAll_append]
      exact (hhead a).append (htail (a.push .value))

theorem takes_exprsBackward {linker : Linker} : ∀ (es : List Expr) {p p' : Progress} {f : Fragment},
    exprsBackward linker es p = .ok f p' → f.length ≤ Slot.limit → es.length ≤ f.length ∧
      ∀ a, f.Takes a (a.pushAll (.replicate es.length .value)) none
  | [], p, p', f, h, _ => by
    rw [exprsBackward] at h
    obtain ⟨rfl, -⟩ := pure_ok h
    exact ⟨Nat.le_refl _, fun _ => .empty⟩
  | e :: rest, p, p', f, h, hlen => by
    rw [exprsBackward] at h
    obtain ⟨k, p₁, hk, h⟩ := bind_ok h
    obtain ⟨g, p₂, hg, h⟩ := bind_ok h
    obtain ⟨rfl, -⟩ := pure_ok h
    rw [Fragment.length_append] at hlen
    have hhead := takes_expr e hg (by omega)
    obtain ⟨hcount, htail⟩ := takes_exprsBackward rest hk (by omega)
    refine ⟨?_, fun a => (htail a).append (hhead _)⟩
    have hpos := (hhead .top).length_pos
    rw [Fragment.length_append, List.length_cons]
    omega

theorem takes_entriesBackward {linker : Linker} :
    ∀ (es : List Entry) {p p' : Progress} {f : Fragment},
    entriesBackward linker es p = .ok f p' → f.length ≤ Slot.limit → es.length ≤ f.length ∧
      ∀ a, f.Takes a (a.pushAll (.replicate (2 * es.length) .value)) none
  | [], p, p', f, h, _ => by
    rw [entriesBackward] at h
    obtain ⟨rfl, -⟩ := pure_ok h
    exact ⟨Nat.le_refl _, fun _ => .empty⟩
  | .mk key value :: rest, p, p', f, h, hlen => by
    rw [entriesBackward] at h
    obtain ⟨later, p₁, hlater, h⟩ := bind_ok h
    obtain ⟨v, p₂, hv, h⟩ := bind_ok h
    obtain ⟨k, p₃, hk, h⟩ := bind_ok h
    obtain ⟨rfl, -⟩ := pure_ok h
    simp only [Fragment.length_append] at hlen
    have hvalue := takes_expr value hv (by omega)
    have hkey := takes_expr key hk (by omega)
    obtain ⟨hcount, htail⟩ := takes_entriesBackward rest hlater (by omega)
    refine ⟨?_, fun a => ((htail a).append (hvalue _)).append (hkey _)⟩
    have hpos := (hvalue .top).length_pos
    simp only [Fragment.length_append, List.length_cons]
    omega

theorem takes_paramsBackward {linker : Linker} :
    ∀ (ps : List Param) {p p' : Progress} {f : Fragment},
    paramsBackward linker ps p = .ok f p' → f.length ≤ Slot.limit → ps.length ≤ f.length ∧
      ∀ a, f.Takes a (a.pushAll (Layout.params ps.length)) none
  | [], p, p', f, h, _ => by
    rw [paramsBackward] at h
    obtain ⟨rfl, -⟩ := pure_ok h
    exact ⟨Nat.le_refl _, fun _ => .empty⟩
  | .mk name guard :: rest, p, p', f, h, hlen => by
    rw [paramsBackward] at h
    obtain ⟨later, p₁, hlater, h⟩ := bind_ok h
    obtain ⟨g, p₂, hg, h⟩ := bind_ok h
    obtain ⟨rfl, -⟩ := pure_ok h
    simp only [Fragment.length_append, Fragment.length_emit] at hlen
    have hguard := takes_guardExpr guard hg (by omega)
    obtain ⟨hcount, htail⟩ := takes_paramsBackward rest hlater (by omega)
    refine ⟨?_, fun a => ((htail a).append (hguard _)).emit ?_⟩
    · simp only [Fragment.length_append, Fragment.length_emit, List.length_cons, List.length_nil]
      omega
    · exact .one (Instruction.stands_string name) (.name name)

theorem takes_guardExpr {linker : Linker} : ∀ (e : Option Expr) {p p' : Progress} {f : Fragment},
    guardExpr linker e p = .ok f p' → f.length ≤ Slot.limit → ∀ a, f.Takes a (a.push .value) none
  | none, p, p', f, h, _, a => by
    rw [guardExpr] at h
    obtain ⟨rfl, -⟩ := pure_ok h
    exact .pushNull
  | some e, p, p', f, h, hlen, a => by
    rw [guardExpr] at h
    exact takes_expr e h hlen a

theorem takes_functionBody {linker : Linker} : ∀ (b : Block) {p p' : Progress} {f : Fragment},
    functionBody linker b p = .ok f p' → f.length ≤ Slot.limit → ∀ c, f.Takes .entry c none
  | .mk _ body, p, p', f, h, hlen, c => by
    rw [functionBody] at h
    obtain ⟨g, p₁, hg, h⟩ := bind_ok h
    have hreturn : ∀ d : Layout,
        (Fragment.ofCode [.bare .pushNull, .bare .ret]).Takes .entry d none :=
      fun d => Fragment.Takes.pushNull.append (.halt (Instruction.stands_bare rfl) (.ret rfl))
    cases hlast : body.getLast? with
    | none =>
      rw [hlast] at h
      obtain ⟨rfl, -⟩ := pure_ok h
      rw [Fragment.length_emit] at hlen
      exact (takes_stmts body hg (by omega) Place.admits_entry _ (Or.inl rfl)).emit (hreturn c)
    | some last =>
      rw [hlast] at h
      obtain ⟨rfl, -⟩ := pure_ok h
      cases hret : last.isReturn with
      | true =>
        rw [hret] at hlen
        exact takes_stmts body hg hlen Place.admits_entry c (Or.inr ⟨last, hlast, hret⟩)
      | false =>
        rw [hret] at hlen
        simp only [Bool.false_eq_true, if_false, Fragment.length_emit] at hlen
        exact (takes_stmts body hg (by omega) Place.admits_entry _ (Or.inl rfl)).emit (hreturn c)

theorem takes_stmts {linker : Linker} : ∀ (body : List Stmt) {place : Place} {p p' : Progress}
    {f : Fragment} {a : Layout}, stmts linker place body p = .ok f p' → f.length ≤ Slot.limit →
    place.Admits a → ∀ c, (c = a ∨ ∃ s, body.getLast? = some s ∧ s.isReturn = true) →
      f.Takes a c (place.around a)
  | [], place, p, p', f, a, h, _, _, c, hc => by
    rw [stmts] at h
    obtain ⟨rfl, -⟩ := pure_ok h
    rcases hc with rfl | ⟨s, hs, -⟩
    · exact .empty
    · cases hs
  | s :: rest, place, p, p', f, a, h, hlen, ha, c, hc => by
    rw [stmts] at h
    obtain ⟨g, p₁, hg, h⟩ := bind_ok h
    obtain ⟨k, p₂, hk, h⟩ := bind_ok h
    obtain ⟨rfl, -⟩ := pure_ok h
    simp only [Fragment.discard, Fragment.length_append, Fragment.length_emit] at hlen
    have hhead := takes_stmt s hg (by omega) ha
    have htail := takes_stmts rest hk (by omega) ha
    cases rest with
    | nil =>
      rw [stmts] at hk
      obtain ⟨rfl, -⟩ := pure_ok hk
      rw [Fragment.append_empty]
      rcases hc with rfl | ⟨s', hs, hret⟩
      · exact (hhead _ c.gains_push (Or.inl rfl)).discard
      · -- control never gets to the instruction that drops the value of a return
        cases hs
        have hpop : (Instruction.bare .pop).Stands .pop := Instruction.stands_bare rfl
        exact (hhead { a.push .value with live := false } ⟨rfl, rfl⟩ (Or.inr hret)).emit
          (.dead hpop rfl rfl)
    | cons s' others =>
      refine (hhead _ a.gains_push (Or.inl rfl)).discard.append (htail c ?_)
      rcases hc with rfl | hret
      · exact Or.inl rfl
      · rw [List.getLast?_cons_cons] at hret
        exact Or.inr hret

theorem takes_blockStmts {linker : Linker} : ∀ (b : Block) {place : Place} {p p' : Progress}
    {f : Fragment} {a : Layout}, blockStmts linker place b p = .ok f p' → f.length ≤ Slot.limit →
    place.Admits a → f.Takes a a (place.around a)
  | .mk _ body, place, p, p', f, a, h, hlen, ha => by
    rw [blockStmts] at h
    exact takes_stmts body h hlen ha a (Or.inl rfl)

theorem takes_block {linker : Linker} : ∀ (b : Block) {place : Place} {p p' : Progress}
    {f : Fragment} {a : Layout}, block linker place b p = .ok f p' → f.length ≤ Slot.limit →
    place.Admits a → f.Takes a a (place.around a)
  | .mk _ body, place, p, p', f, a, h, hlen, ha => by
    rw [block] at h
    obtain ⟨g, p₁, hg, h⟩ := bind_ok h
    obtain ⟨rfl, -⟩ := pure_ok h
    simp only [Fragment.inScope, Fragment.length_emit, Fragment.length_append] at hlen
    exact (takes_stmts body hg (by omega) ha.inScope _ (Or.inl rfl)).inScope

theorem takes_blockOption {linker : Linker} : ∀ (b : Option Block) {place : Place}
    {p p' : Progress} {f : Fragment} {a : Layout},
    blockOption linker place b p = .ok (some f) p' → f.length ≤ Slot.limit →
    place.Admits a → f.Takes a a (place.around a)
  | none, place, p, p', f, a, h, _, _ => by
    rw [blockOption] at h
    cases (pure_ok h).1
  | some b, place, p, p', f, a, h, hlen, ha => by
    rw [blockOption] at h
    obtain ⟨g, p₁, hg, h⟩ := bind_ok h
    cases (pure_ok h).1
    exact takes_block b hg hlen ha

theorem takes_branches {linker : Linker} : ∀ (bs : List Branch) {place : Place} {p p' : Progress}
    {l : List (Fragment × Fragment)} {a : Layout}, branches linker place bs p = .ok l p' →
    (∀ arm ∈ l, arm.1.length + arm.2.length ≤ Slot.limit) → place.Admits a →
    ∀ arm ∈ l, arm.1.Takes a (a.push .value) (place.around a) ∧ arm.2.Takes a a (place.around a)
  | [], place, p, p', l, a, h, _, _ => by
    rw [branches] at h
    obtain ⟨rfl, -⟩ := pure_ok h
    intro arm harm
    exact absurd harm List.not_mem_nil
  | .mk cond body :: rest, place, p, p', l, a, h, hlen, ha => by
    rw [branches] at h
    obtain ⟨c, p₁, hc, h⟩ := bind_ok h
    obtain ⟨b, p₂, hb, h⟩ := bind_ok h
    obtain ⟨others, p₃, hothers, h⟩ := bind_ok h
    obtain ⟨rfl, -⟩ := pure_ok h
    have hhead : c.length + b.length ≤ Slot.limit := hlen (c, b) List.mem_cons_self
    have htail := takes_branches rest hothers
      (fun arm harm => hlen arm (List.mem_cons_of_mem _ harm)) ha
    intro arm harm
    rcases List.mem_cons.mp harm with rfl | harm
    · have hbody : b.length ≤ Slot.limit := by omega
      exact ⟨(takes_expr cond hc (by omega) a).inAnyLoop, takes_block body hb hbody ha⟩
    · exact htail arm harm

theorem takes_cases {linker : Linker} : ∀ (cs : List Case) {place : Place} {p p' : Progress}
    {l : List (Fragment × Fragment)} {a : Layout}, cases linker place cs p = .ok l p' →
    (∀ arm ∈ l, arm.1.length + arm.2.length ≤ Slot.limit) → place.Admits a →
    ∀ arm ∈ l, arm.1.Takes a (a.push .value) (place.around a) ∧ arm.2.Takes a a (place.around a)
  | [], place, p, p', l, a, h, _, _ => by
    rw [Compiler.cases] at h
    obtain ⟨rfl, -⟩ := pure_ok h
    intro arm harm
    exact absurd harm List.not_mem_nil
  | .mk values body :: rest, place, p, p', l, a, h, hlen, ha => by
    rw [Compiler.cases] at h
    obtain ⟨test, p₁, htest, h⟩ := bind_ok h
    obtain ⟨b, p₂, hb, h⟩ := bind_ok h
    obtain ⟨others, p₃, hothers, h⟩ := bind_ok h
    obtain ⟨rfl, -⟩ := pure_ok h
    have hhead : (test.getD (Fragment.boolean body.span false)).length + b.length ≤ Slot.limit :=
      hlen (test.getD (Fragment.boolean body.span false), b) List.mem_cons_self
    have htail := takes_cases rest hothers
      (fun arm harm => hlen arm (List.mem_cons_of_mem _ harm)) ha
    have hbody := takes_block body hb (by omega) ha
    intro arm harm
    rcases List.mem_cons.mp harm with rfl | harm
    · refine ⟨?_, hbody⟩
      cases test with
      | none => exact .boolean body.span false
      | some t =>
        have ht : t.length + b.length ≤ Slot.limit := hhead
        have hall := takes_alternatives values htest (fun t ht => by cases ht) t rfl
        exact (hall.2 (by omega) a).inAnyLoop
    · exact htail arm harm

theorem takes_alternatives {linker : Linker} : ∀ (values : List Expr) {before : Option Fragment}
    {p p' : Progress} {result : Option Fragment},
    alternatives linker before values p = .ok result p' →
    (∀ t, before = some t → t.length ≤ Slot.limit → ∀ a, t.Takes a (a.push .value) none) →
    ∀ t, result = some t → (∀ t', before = some t' → t'.length ≤ t.length) ∧
      (t.length ≤ Slot.limit → ∀ a, t.Takes a (a.push .value) none)
  | [], before, p, p', result, h, hbefore => by
    rw [alternatives] at h
    obtain ⟨rfl, -⟩ := pure_ok h
    intro t ht
    refine ⟨fun t' ht' => ?_, hbefore t ht⟩
    have hsame : t = t' := Option.some.inj (ht.symm.trans ht')
    exact Nat.le_of_eq (congrArg Fragment.length hsame.symm)
  | v :: rest, before, p, p', result, h, hbefore => by
    rw [alternatives] at h
    obtain ⟨f, p₁, hf, h⟩ := bind_ok h
    have htest : ∀ a, f.length ≤ Slot.limit →
        (caseTest v.span f).Takes a (a.push .value) none :=
      fun a hlen => .caseTest (takes_expr v hf hlen) v.span
    have hsize : f.length ≤ (caseTest v.span f).length :=
      Nat.le_trans (Nat.le_add_left _ _)
        (Fragment.length_binary v.span "==" (Fragment.var v.span hiddenMatch) f)
    cases before with
    | none =>
      have hrest := takes_alternatives rest h (by
        intro t ht hlen a
        rw [← Option.some.inj ht] at hlen ⊢
        exact htest a (Nat.le_trans hsize hlen))
      intro t ht
      exact ⟨fun t' ht' => absurd ht' (by simp), (hrest t ht).2⟩
    | some b =>
      have hboth := Fragment.length_binary v.span "or" b (caseTest v.span f)
      have hrest := takes_alternatives rest h (by
        intro t ht hlen a
        rw [← Option.some.inj ht] at hlen ⊢
        have hlen : (Fragment.binary v.span "or" b (caseTest v.span f)).length ≤ Slot.limit := hlen
        exact (hbefore b rfl (by omega) a).binary (htest a (by omega)) (htest _ (by omega)) _ _)
      intro t ht
      refine ⟨fun t' ht' => ?_, (hrest t ht).2⟩
      have hle : (Fragment.binary v.span "or" b (caseTest v.span f)).length ≤ t.length :=
        (hrest t ht).1 _ rfl
      rw [← Option.some.inj ht']
      omega

theorem takes_exprOption {linker : Linker} : ∀ (e : Option Expr) {p p' : Progress} {f : Fragment},
    exprOption linker e p = .ok (some f) p' → f.length ≤ Slot.limit →
      ∀ a, f.Takes a (a.push .value) none
  | none, p, p', f, h, _, _ => by
    rw [exprOption] at h
    cases (pure_ok h).1
  | some e, p, p', f, h, hlen, a => by
    rw [exprOption] at h
    obtain ⟨g, p₁, hg, h⟩ := bind_ok h
    cases (pure_ok h).1
    exact takes_expr e hg hlen a

theorem takes_stmtOption {linker : Linker} : ∀ (s : Option Stmt) {place : Place} {p p' : Progress}
    {f : Fragment} {a : Layout}, stmtOption linker place s p = .ok f p' → f.length ≤ Slot.limit →
    place.Admits a → f.Takes a a (place.around a)
  | none, place, p, p', f, a, h, _, _ => by
    rw [stmtOption] at h
    obtain ⟨rfl, -⟩ := pure_ok h
    exact .empty
  | some s, place, p, p', f, a, h, hlen, ha => by
    rw [stmtOption] at h
    obtain ⟨g, p₁, hg, h⟩ := bind_ok h
    obtain ⟨rfl, -⟩ := pure_ok h
    simp only [Fragment.discard, Fragment.length_emit] at hlen
    exact (takes_stmt s hg (by omega) ha _ a.gains_push (Or.inl rfl)).discard

theorem takes_stmt {linker : Linker} : ∀ (s : Stmt) {place : Place} {p p' : Progress}
    {f : Fragment} {a : Layout}, stmt linker place s p = .ok f p' → f.length ≤ Slot.limit →
    place.Admits a → ∀ b, a.Gains b → (b = a.push .value ∨ s.isReturn = true) →
      f.Takes a b (place.around a)
  | .ret s value, place, p, p', f, a, h, hlen, ha, b, hgains, _ => by
    rw [stmt] at h
    obtain ⟨v, p₁, hv, h⟩ := bind_ok h
    obtain ⟨rfl, -⟩ := pure_ok h
    rw [Fragment.length_mark, Fragment.length_emit] at hlen
    have hvalue : (v.getD (Fragment.ofCode [.bare .pushNull])).Takes a (a.push .value)
        (place.around a) := by
      cases v with
      | none => exact .pushNull
      | some g =>
        have hg : g.length + 1 ≤ Slot.limit := hlen
        exact (takes_exprOption value hv (by omega) a).inAnyLoop
    exact (hvalue.emit (.halt (Instruction.stands_bare rfl) (.ret ha.slots))).mark hgains (absurd · (by decide)) _
  | .expr _ x, place, p, p', f, a, h, hlen, ha, b, _, Or.inl hb => by
    rw [stmt] at h
    rw [hb]
    exact (takes_expr x h hlen a).inAnyLoop
  | .block body, place, p, p', f, a, h, hlen, ha, b, _, Or.inl hb => by
    rw [stmt] at h
    obtain ⟨g, p₁, hg, h⟩ := bind_ok h
    obtain ⟨rfl, -⟩ := pure_ok h
    rw [Fragment.length_mark, Fragment.length_emit] at hlen
    rw [hb]
    exact ((takes_block body hg (by omega) ha).emit .pushNull).mark a.gains_push (absurd · (by decide)) _
  | .cond s bs otherwise, place, p, p', f, a, h, hlen, ha, b, _, Or.inl hb => by
    rw [stmt] at h
    obtain ⟨l, p₁, hl, h⟩ := bind_ok h
    obtain ⟨other, p₂, hother, h⟩ := bind_ok h
    obtain ⟨rfl, -⟩ := pure_ok h
    simp only [Fragment.chain, Fragment.length_mark, Fragment.length_emit] at hlen
    rw [hb]
    refine Fragment.Takes.mark (.chain ?_ ?_) a.gains_push (absurd · (by decide)) _
    · refine takes_branches bs hl (fun arm harm => ?_) ha
      have harms := @Fragment.length_arms l other arm harm
      omega
    · intro g hg
      subst hg
      have harms := @Fragment.length_arms_other l g
      exact takes_blockOption otherwise hother (by omega) ha
  | .whileLoop s cond body, place, p, p', f, a, h, hlen, ha, b, _, Or.inl hb => by
    rw [stmt] at h
    obtain ⟨c, p₁, hc, h⟩ := bind_ok h
    obtain ⟨g, p₂, hg, h⟩ := bind_ok h
    obtain ⟨rfl, -⟩ := pure_ok h
    have hparts := Fragment.length_loop Fragment.empty (some c) (Fragment.inScope g) Fragment.empty
    simp only [Fragment.length_inScope] at hparts
    rw [Fragment.length_mark] at hlen
    have hbody := takes_blockStmts body hg (by omega) ha.inLoop
    rw [ha.around_inLoop] at hbody
    rw [hb]
    refine Fragment.Takes.mark (.loop .empty ?_ hbody.inScope .empty) a.gains_push (absurd · (by decide)) _
    intro c' hc'
    have hcond := hparts.2 c rfl
    rw [← Option.some.inj hc']
    exact takes_expr cond hc (by omega) _
  | .forLoop s init cond step body, place, p, p', f, a, h, hlen, ha, b, _, Or.inl hb => by
    rw [stmt] at h
    obtain ⟨i, p₁, hi, h⟩ := bind_ok h
    obtain ⟨c, p₂, hc, h⟩ := bind_ok h
    obtain ⟨g, p₃, hg, h⟩ := bind_ok h
    obtain ⟨n, p₄, hn, h⟩ := bind_ok h
    obtain ⟨rfl, -⟩ := pure_ok h
    have hparts := Fragment.length_loop i c (Fragment.inScope g) n
    simp only [Fragment.length_inScope] at hparts
    rw [Fragment.length_mark] at hlen
    have hinit := takes_stmtOption init hi (by omega) ha.inScope
    have hstep := takes_stmtOption step hn (by omega) ha.inScope
    have hbody := takes_blockStmts body hg (by omega) ha.inLoop
    rw [ha.around_inLoop] at hbody
    rw [hb]
    refine Fragment.Takes.mark (.loop hinit ?_ hbody.inScope hstep) a.gains_push (absurd · (by decide)) _
    intro c' hc'
    have hcond := hparts.2 c' hc'
    rw [hc'] at hc
    exact takes_exprOption cond hc (by omega) _
  | .loop s count body, place, p, p', f, a, h, hlen, ha, b, _, Or.inl hb => by
    rw [stmt] at h
    obtain ⟨c, p₁, hc, h⟩ := bind_ok h
    obtain ⟨g, p₂, hg, h⟩ := bind_ok h
    obtain ⟨rfl, -⟩ := pure_ok h
    have hparts := length_repeatLoop s c (Fragment.inScope g)
    rw [Fragment.length_inScope] at hparts
    have hbody := takes_blockStmts body hg (by omega) ha.inLoop
    rw [ha.around_inLoop] at hbody
    rw [hb]
    exact .repeatLoop ha.slots (takes_expr count hc (by omega) _).inAnyLoop hbody.inScope s
  | .each s name source body, place, p, p', f, a, h, hlen, ha, b, _, Or.inl hb => by
    rw [stmt] at h
    obtain ⟨c, p₁, hc, h⟩ := bind_ok h
    obtain ⟨g, p₂, hg, h⟩ := bind_ok h
    obtain ⟨rfl, -⟩ := pure_ok h
    have hparts := length_eachLoop s name c g
    have hbody := takes_blockStmts body hg (by omega) ha.inLoop
    rw [ha.around_inLoop] at hbody
    rw [hb]
    exact .eachLoop ha.slots (fun _ => (takes_expr source hc (by omega) _).inAnyLoop) hbody s
  | .select s subject cs otherwise, place, p, p', f, a, h, hlen, ha, b, _, Or.inl hb => by
    rw [stmt] at h
    obtain ⟨x, p₁, hx, h⟩ := bind_ok h
    dsimp only at h
    split at h
    · cases (bind_ok h).choose_spec.choose_spec.1
    obtain ⟨l, p₂, hl, h⟩ := bind_ok h
    obtain ⟨other, p₃, hother, h⟩ := bind_ok h
    obtain ⟨rfl, -⟩ := pure_ok h
    obtain ⟨hsubject, hcases, hrest⟩ := length_selectChain s x l other
    rw [hb]
    refine .selectChain (takes_expr subject hx (by omega) _).inAnyLoop ?_ ?_ s
    · have hshort : ∀ arm ∈ l, arm.1.length + arm.2.length ≤ Slot.limit :=
        fun arm harm => Nat.le_trans (hcases arm harm) hlen
      have harms := takes_cases cs hl hshort ha.inScope
      exact harms
    · intro g hg
      have hshort := Nat.le_trans (hrest g hg) hlen
      rw [hg] at hother
      have hblock := takes_blockOption otherwise hother hshort ha.inScope
      exact hblock
  | .impl s method type params body, place, p, p', f, a, h, hlen, ha, b, _, Or.inl hb => by
    rw [stmt] at h
    rw [hb]
    split at h
    · obtain ⟨_, p₁, -, h⟩ := bind_ok h
      obtain ⟨rfl, -⟩ := pure_ok h
      exact .pushNull
    · obtain ⟨_, p₁, -, h⟩ := bind_ok h
      obtain ⟨ps, p₂, hps, h⟩ := bind_ok h
      obtain ⟨g, p₃, hg, h⟩ := bind_ok h
      obtain ⟨rfl, -⟩ := pure_ok h
      have hparts := Fragment.length_function ps params.length type g
      rw [Fragment.length_mark, Fragment.length_emit] at hlen
      obtain ⟨hcount, htakes⟩ := takes_paramsBackward params hps (by omega)
      have hfunction : (Fragment.function ps params.length type g).Takes a (a.push .value) none :=
        (htakes a).function (by omega) (takes_functionBody body hg (by omega) _)
      exact (hfunction.inAnyLoop.emit (.bindTop _ .inner)).mark a.gains_push (absurd · (by decide)) _
  | .typeDef s name fields, place, p, p', f, a, h, hlen, ha, b, _, Or.inl hb => by
    rw [stmt] at h
    obtain ⟨_, p₁, -, h⟩ := bind_ok h
    obtain ⟨rfl, -⟩ := pure_ok h
    rw [hb]
    refine .typeDef s name ?_
    simp only [typeDefCode, Fragment.length_mark, Fragment.length_ofCode, List.length_append,
      List.length_map, List.length_reverse] at hlen
    omega
  | .leave s, place, p, p', f, a, h, _, ha, b, hgains, Or.inl hb => by
    rw [stmt] at h
    obtain ⟨rfl, -⟩ := pure_ok h
    exact (ha.exit false).mark hgains (absurd · (by decide)) _
  | .again s, place, p, p', f, a, h, _, ha, b, hgains, Or.inl hb => by
    rw [stmt] at h
    obtain ⟨rfl, -⟩ := pure_ok h
    exact (ha.exit true).mark hgains (absurd · (by decide)) _
  | .imports s path names, place, p, p', f, a, h, _, ha, b, _, Or.inl hb => by
    rw [stmt] at h
    rw [hb]
    exact takes_importStmt h
  | .exports s names, place, p, p', f, a, h, _, ha, b, _, Or.inl hb => by
    rw [stmt] at h
    rw [hb]
    exact takes_exportStmt h
  | .missing, place, p, p', f, a, h, _, ha, b, _, Or.inl hb => by
    rw [stmt] at h
    cases h

end

/-!
# Compiled programs

Every program that compilation yields and that a memory could hold has layouts.
-/

/-- The code of an expression is recorded as a whole. -/
theorem expr_marked {linker : Linker} {e : Expr} {p p' : Progress} {f : Fragment} (h : expr linker e p = .ok f p') :
    ∃ (g : Fragment) (kind : String) (span : Span), f = g.mark kind span := by
  cases e with
  | number | text | boolean | null | var =>
    rw [expr] at h
    obtain ⟨rfl, -⟩ := pure_ok h
    exact ⟨_, _, _, rfl⟩
  | list | dict | unary | member =>
    rw [expr] at h
    obtain ⟨_, _, -, h⟩ := bind_ok h
    obtain ⟨rfl, -⟩ := pure_ok h
    exact ⟨_, _, _, rfl⟩
  | binary | call | index =>
    rw [expr] at h
    obtain ⟨_, _, -, h⟩ := bind_ok h
    obtain ⟨_, _, -, h⟩ := bind_ok h
    obtain ⟨rfl, -⟩ := pure_ok h
    exact ⟨_, _, _, rfl⟩
  | assign s target value scope =>
    rw [expr] at h
    obtain ⟨v, _, -, h⟩ := bind_ok h
    obtain ⟨t, _, -, h⟩ := bind_ok h
    obtain ⟨rfl, -⟩ := pure_ok h
    unfold Fragment.assign
    split
    · exact ⟨_, _, _, rfl⟩
    · exact ⟨_, _, _, rfl⟩
  | func s name params body =>
    rw [expr] at h
    obtain ⟨_, _, -, h⟩ := bind_ok h
    obtain ⟨_, _, -, h⟩ := bind_ok h
    obtain ⟨_, _, -, h⟩ := bind_ok h
    obtain ⟨rfl, -⟩ := pure_ok h
    exact ⟨_, _, _, rfl⟩
  | missing =>
    rw [expr] at h
    cases h

/-- Every node of the program gains one value between the positions where its code begins and
ends. -/
def NodesGain (p : Program) (ty : Nat → Layout) : Prop :=
  ∀ e ∈ p.debug, ∃ i j : Nat, i < j ∧ j ≤ p.size ∧ e.stop = j ∧ e.length = j - i ∧
    (ty i).Gains (ty j)

/-- The activation has no operands where a loop begins that keeps names for itself. -/
def LoopsBare (p : Program) (ty : Nat → Layout) : Prop :=
  ∀ e ∈ p.debug, ofLoop e.kind = true → ∀ i : Nat, e.stop - e.length = i → (ty i).slots = []

theorem compile_ok {linker : Linker} {exporting : Bool} {body : List Stmt} {c : Compiled}
    (h : (compile linker exporting body).result = .ok c) :
    ∃ f p, stmts linker Place.top body ⟨#[], exporting⟩ = .ok f p ∧
      c = ⟨⟨f.code.toArray, f.debug⟩, p.problems.toList⟩ := by
  unfold compile at h
  cases hrun : (stmts linker Place.top body).run ⟨#[], exporting⟩ with
  | ok f p =>
    rw [hrun] at h
    exact ⟨f, p, hrun, (Except.ok.inj h).symm⟩
  | error e p =>
    rw [hrun] at h
    cases h

theorem compile_lays {linker : Linker} {exporting : Bool} {body : List Stmt} {c : Compiled}
    (h : (compile linker exporting body).result = .ok c) (hsize : c.program.size ≤ Slot.limit) :
    ∃ (ops : Array Op) (ty : Nat → Layout), Op.ofProgram c.program = ⟨ops, none⟩ ∧
      ops.size = c.program.size ∧ Op.Fit ops ty ∧ NodesGain c.program ty ∧ LoopsBare c.program ty := by
  obtain ⟨f, p, hf, rfl⟩ := compile_ok h
  obtain ⟨ty, hstart, hstop, hfits⟩ :=
    takes_stmts body hf hsize Place.admits_top .top (Or.inl rfl)
  have hnone : ∀ e, e ∉ f.exits := by
    intro e he
    cases (hfits.exits e he).2
  have hcode : ∀ (i : Nat) ins, f.code.toArray[i]? = some ins → ins.Fits ty f.length i := by
    intro i ins hins
    rw [List.getElem?_toArray] at hins
    have hfit := hfits.flows i ins hins fun e he => absurd he (hnone e)
    rw [Nat.zero_add] at hfit
    exact hfit
  obtain ⟨ops, hops, hlen, hfit⟩ :=
    @Op.fit_of_fits ⟨f.code.toArray, f.debug⟩ ty hstart hstop hsize hcode
  refine ⟨ops, ty, hops, hlen, hfit, fun e he => ?_, fun e he hkind k hk => ?_⟩
  · obtain ⟨i, j, hij, hj, hstop, hlen, -, hgains⟩ := hfits.nodes e he
    rw [Nat.zero_add, Nat.zero_add] at hgains
    exact ⟨i, j, hij, hj, hstop, hlen, hgains⟩
  · obtain ⟨i, j, -, -, hstop, hlen, hbare, -⟩ := hfits.nodes e he
    obtain rfl : k = i := by omega
    rw [Nat.zero_add] at hbare
    exact hbare hkind

theorem compile_fits {linker : Linker} {exporting : Bool} {body : List Stmt} {c : Compiled}
    (h : (compile linker exporting body).result = .ok c) (hsize : c.program.size ≤ Slot.limit) :
    ∃ (ops : Array Op) (ty : Nat → Layout), Op.ofProgram c.program = ⟨ops, none⟩ ∧
      ops.size = c.program.size ∧ Op.Fit ops ty ∧ NodesGain c.program ty := by
  obtain ⟨ops, ty, hops, hlen, hfit, hnodes, -⟩ := compile_lays h hsize
  exact ⟨ops, ty, hops, hlen, hfit, hnodes⟩

end Compiler
end ScriptEngine
