import ScriptEngine.Proofs.Compiler.Counters
import ScriptEngine.Proofs.Plans.Building

/-!
# Fragments written out

The compiler puts fragments together from the inside and turns the exits of a loop into jumps when it
lays the loop out. What becomes of a fragment at its place is what writing its plan out gives.
-/

namespace ScriptEngine

namespace Plan

/-- A distance does not depend on where its code stands. -/
theorem leap_shift (op : Operation) (k i target : Nat) :
    leap op (k + i) (k + target) = leap op i target := by
  unfold leap
  congr 1
  omega

theorem leap_eq {op : Operation} {index target : Nat} {d : Int}
    (h : (target : Int) = index + 1 + d) : leap op index target = .withDistance op d := by
  unfold leap
  congr 1
  omega

theorem scopes_deeper (around : Option Around) :
    (around.map Around.deeper).map Around.scopes = (around.map Around.scopes).map (· + 1) := by
  cases around <;> rfl

end Plan

open Plan (Around leap leap_shift leap_eq scopes_deeper)

namespace Fragment

/-- The code of the fragment at place `k`, its waiting exits turned into jumps out of the loop
around. -/
def placed (f : Fragment) (around : Option Around) (k : Nat) : List Instruction :=
  match around with
  | none => f.code
  | some l =>
    f.exits.foldl
      (fun code e => code.set e.index (leap .jump (k + e.index) (if e.again then l.again else l.leave)))
      f.code

/-- At its place in the body of a loop, or outside of loops, the fragment becomes some code. -/
structure Becomes (f : Fragment) (around : Option Around) (k : Nat) (code : List Instruction) : Prop where
  exits : ∀ e ∈ f.exits, e.index < f.length ∧ around.isSome = true
  code : f.placed around k = code

namespace Becomes

variable {f g : Fragment} {around : Option Around} {k : Nat} {code code' : List Instruction}

theorem length_foldl_set {α : Type} (index : α → Nat) (value : α → Instruction) (l : List α)
    (code : List Instruction) :
    (l.foldl (fun code e => code.set (index e) (value e)) code).length = code.length := by
  induction l generalizing code with
  | nil => rfl
  | cons e rest ih => rw [List.foldl_cons, ih, List.length_set]

theorem length (h : f.Becomes around k code) : code.length = f.length := by
  rw [← h.code]
  cases around with
  | none => rfl
  | some l => exact length_foldl_set _ _ _ _

theorem of_exits_nil (h : f.exits = []) : f.Becomes around k f.code := by
  constructor
  · rw [h]
    exact fun _ he => absurd he List.not_mem_nil
  · cases around with
    | none => rfl
    | some l =>
      unfold placed
      rw [h]
      rfl

theorem ofCode (code : List Instruction) : (Fragment.ofCode code).Becomes around k code :=
  of_exits_nil rfl

/-- Outside of loops nothing waits, so the code is the same inside of one. -/
theorem inAnyLoop (h : f.Becomes none k code) : f.Becomes around k code := by
  have hnone : f.exits = [] := by
    apply List.eq_nil_iff_forall_not_mem.mpr
    intro e he
    cases (h.exits e he).2
  rw [← h.code]
  exact of_exits_nil hnone

/-- Exits in the first of two parts stay there. -/
theorem foldl_set_left (value : LoopExit → Instruction) (l : List LoopExit)
    (c d : List Instruction) (h : ∀ e ∈ l, e.index < c.length) :
    l.foldl (fun code e => code.set e.index (value e)) (c ++ d) =
      l.foldl (fun code e => code.set e.index (value e)) c ++ d := by
  induction l generalizing c with
  | nil => rfl
  | cons e rest ih =>
    obtain ⟨he, hrest⟩ := List.forall_mem_cons.mp h
    rw [List.foldl_cons, List.set_append_left _ _ he, ih, List.foldl_cons]
    rwa [List.length_set]

/-- Exits in the second of two parts are those of that part, moved. -/
theorem foldl_set_right (value : Nat → Bool → Instruction) (l : List LoopExit)
    (c d : List Instruction) :
    (l.map fun e => (⟨e.index + c.length, e.again⟩ : LoopExit)).foldl
        (fun code e => code.set e.index (value e.index e.again)) (c ++ d) =
      c ++ l.foldl (fun code e => code.set e.index (value (e.index + c.length) e.again)) d := by
  induction l generalizing d with
  | nil => rfl
  | cons e rest ih =>
    rw [List.map_cons, List.foldl_cons, List.set_append_right _ _ (Nat.le_add_left _ _),
      Nat.add_sub_cancel, ih, List.foldl_cons]

theorem append (hf : f.Becomes around k code) (hg : g.Becomes around (k + f.length) code') :
    (f ++ g).Becomes around k (code ++ code') := by
  constructor
  · intro e he
    rw [length_append]
    rcases List.mem_append.mp he with he | he
    · obtain ⟨hlt, haround⟩ := hf.exits e he
      exact ⟨Nat.lt_add_right _ hlt, haround⟩
    · obtain ⟨e', he', rfl⟩ := List.mem_map.mp he
      obtain ⟨hlt, haround⟩ := hg.exits e' he'
      exact ⟨by show e'.index + f.length < _; omega, haround⟩
  · rw [← hf.code, ← hg.code]
    cases around with
    | none => rfl
    | some l =>
      have hplaced : (f.placed (some l) k).length = f.length := length_foldl_set _ _ _ _
      have hright := foldl_set_right
        (fun i again => leap .jump (k + i) (if again then l.again else l.leave)) g.exits
        (f.placed (some l) k) g.code
      rw [hplaced] at hright
      show (f.exits ++ g.exits.map _).foldl _ (f.code ++ g.code) = _
      rw [List.foldl_append, foldl_set_left
        (fun e => leap .jump (k + e.index) (if e.again then l.again else l.leave)) f.exits f.code g.code
        fun e he => (hf.exits e he).1]
      refine hright.trans ?_
      simp only [Nat.add_comm _ f.length, ← Nat.add_assoc]
      rfl

theorem mark (h : f.Becomes around k code) (kind : String) (span : Span) :
    (f.mark kind span).Becomes around k code := by
  constructor
  · rw [mark_exits, length_mark]
    exact h.exits
  · rw [← h.code]
    unfold placed
    rw [mark_exits, mark_code]

/-- The exits of a loop's body lead out of that loop. -/
theorem resolve {l : Around} {leave again : Nat} (h : f.Becomes (some l) k code)
    (hleave : l.leave = k + leave) (hagain : l.again = k + again) :
    (f.resolve leave again).Becomes around k code := by
  have hcode : (f.resolve leave again).code = code := by
    rw [← h.code]
    show f.exits.foldl _ f.code = f.exits.foldl _ f.code
    congr 1
    funext c e
    rw [hleave, hagain]
    cases e.again with
    | false => exact congrArg _ (leap_shift _ _ _ _).symm
    | true => exact congrArg _ (leap_shift _ _ _ _).symm
  rw [← hcode]
  exact of_exits_nil rfl

theorem at_place {k' : Nat} (h : f.Becomes around k code) (hk : k = k') : f.Becomes around k' code :=
  hk ▸ h

/-- Exits lead to the same places from inside of one more scope. -/
theorem of_deeper (h : f.Becomes (around.map Around.deeper) k code) : f.Becomes around k code := by
  cases around with
  | none => exact h
  | some l => exact ⟨h.exits, h.code⟩

theorem emit (hf : f.Becomes around k code) (code' : List Instruction) :
    (f.emit code').Becomes around k (code ++ code') := by
  rw [emit_eq]
  exact hf.append (ofCode code')

theorem exit (again : Bool) (around : Option Around) (label : Option Plan.Label) (k : Nat) :
    (Fragment.exit again (around.map Around.scopes)).Becomes around k
      (((Plan.exit again).write around label k).map Prod.fst) := by
  cases around with
  | none => exact of_exits_nil rfl
  | some l =>
    constructor
    · intro e he
      rw [List.mem_singleton.mp he]
      refine ⟨?_, rfl⟩
      show l.scopes < (List.replicate l.scopes _ ++ [_]).length
      simp
    · show (List.replicate l.scopes (Instruction.bare .scopeExit) ++ [_]).set l.scopes _ = _
      rw [List.set_append_right _ _ (by simp)]
      simp [Plan.write]

end Becomes
end Fragment

namespace Plan

open Fragment (Becomes)

theorem length_build (scopes : Option Nat) (a : Plan) : (a.build scopes).length = a.width scopes := by
  induction a generalizing scopes with
  | ins code => rfl
  | seq a b iha ihb => rw [build, Fragment.length_append, iha, ihb, width]
  | node kind span a ih => rw [build, Fragment.length_mark, ih, width]
  | skip op a ih => rw [build, Fragment.length_append, ih, width, Fragment.length_ofCode, List.length_singleton]
  | choose yes no ihyes ihno =>
    simp only [build, Fragment.length_append, ihyes, ihno, width, Fragment.length_ofCode,
      List.length_singleton]
  | scope a ih =>
    simp only [build, Fragment.inScope, Fragment.length_emit, Fragment.length_append, ih, width,
      Fragment.length_ofCode, List.length_singleton]
  | loop init tested cond body step ihinit ihcond ihbody ihstep =>
    rw [build, width, Fragment.loop_eq]
    cases tested with
    | false =>
      simp only [Fragment.length_append, Fragment.length_resolve, Fragment.length_ofCode, ihinit, ihbody,
        ihstep, Fragment.loopTest, testWidth, Bool.false_eq_true, if_false, Fragment.length_empty,
        List.length_cons, List.length_nil]
      omega
    | true =>
      simp only [Fragment.length_append, Fragment.length_resolve, Fragment.length_ofCode, ihinit, ihbody,
        ihstep, ihcond, Fragment.loopTest, testWidth, if_true, Fragment.length_emit, List.length_cons,
        List.length_nil]
      omega
  | func a ih =>
    rw [build, Fragment.length_append, ih, width, Fragment.length_ofCode, List.length_singleton]
  | exit again =>
    cases scopes with
    | none => rfl
    | some n => simp [build, Fragment.exit, Fragment.length, width]

/-- The test of a loop, behind which `rest` instructions remain in a round. -/
theorem becomes_test {cond : Plan} {around : Option Around} {label : Option Label} {scopes : Option Nat}
    {first rest leave : Nat}
    (hcond : (cond.build scopes).Becomes around first ((cond.write around label first).map Prod.fst))
    (tested : Bool) (hleave : leave = first + testWidth tested (cond.width scopes) + rest) :
    (Fragment.loopTest (if tested then some (cond.build scopes) else none) rest).Becomes around first
      ((if tested then
        cond.write around label first ++ [(leap .jumpIfFalse (first + cond.width scopes) leave, label)]
      else []).map Prod.fst) := by
  cases tested with
  | false => exact Becomes.ofCode []
  | true =>
    unfold testWidth at hleave
    rw [if_pos rfl] at hleave ⊢
    rw [if_pos rfl, List.map_append, List.map_singleton, leap_eq (d := rest) (by omega)]
    exact hcond.emit _

theorem length_loopTest (cond : Plan) (scopes : Option Nat) (tested : Bool) (rest : Nat) :
    (Fragment.loopTest (if tested then some (cond.build scopes) else none) rest).length =
      testWidth tested (cond.width scopes) := by
  cases tested with
  | false => rfl
  | true => exact (Fragment.length_emit _ _).trans (congrArg (· + 1) (length_build scopes cond))

theorem map_write_ins (code : List Instruction) (around : Option Around) (label : Option Label) (k : Nat) :
    ((ins code).write around label k).map Prod.fst = code := by
  simp [write, Function.comp_def]

/-- A plan that was built at its place is a plan written out. -/
theorem becomes_build (a : Plan) (around : Option Around) (label : Option Label) (k : Nat) :
    (a.build (around.map Around.scopes)).Becomes around k ((a.write around label k).map Prod.fst) := by
  induction a generalizing around label k with
  | ins code =>
    rw [map_write_ins]
    exact Becomes.ofCode code
  | seq a b iha ihb =>
    rw [build, write, List.map_append]
    apply (iha around label k).append
    rw [length_build]
    exact ihb around label _
  | node kind span a ih =>
    rw [build, write]
    exact (ih around _ k).mark kind span
  | skip op a ih =>
    rw [build, write, List.map_cons, length_build, leap_eq (d := a.width (around.map Around.scopes)) (by omega)]
    exact (Becomes.ofCode _).append (ih around label (k + 1))
  | choose yes no ihyes ihno =>
    have hyes := ihyes around label (k + 1)
    have hno := ihno around label (k + 1 + yes.width (around.map Around.scopes) + 1)
    have h := (((Becomes.ofCode [.withDistance .jumpIfFalse
      ((yes.build (around.map Around.scopes)).length + 1)]).append hyes).append
      (Becomes.ofCode [.withDistance .jump (no.build (around.map Around.scopes)).length])).append
      (hno.at_place (by
        simp only [Fragment.length_append, Fragment.length_ofCode, length_build, List.length_singleton]
        omega))
    rw [build, write]
    simp only [length_build] at h ⊢
    rw [leap_eq (d := (yes.width (around.map Around.scopes) : Int) + 1) (by omega),
      leap_eq (d := no.width (around.map Around.scopes)) (by omega)]
    simpa only [List.map_append, List.map_cons, List.append_assoc, List.cons_append,
      List.nil_append] using h
  | scope a ih =>
    have ha := ih (around.map Around.deeper) label (k + 1)
    rw [scopes_deeper] at ha
    rw [build, write, List.map_append, List.map_cons]
    exact ((Becomes.ofCode [.bare .scopeEnter]).append ha.of_deeper).emit [.bare .scopeExit]
  | loop init tested cond body step ihinit ihcond ihbody ihstep =>
    apply Becomes.of_deeper
    rw [build, write, Fragment.loop_eq, ← scopes_deeper]
    generalize around.map Around.deeper = outside
    have hwidth := length_build (outside.map Around.scopes)
    have hinit := ihinit outside label (k + 1)
    have hcond := ihcond outside label
    have hstep := ihstep outside label
    simp only [length_build, length_loopTest]
    generalize outside.map Around.scopes = inside at *
    -- the places of the parts
    obtain ⟨first, hfirst⟩ : ∃ n, n = k + 1 + init.width inside := ⟨_, rfl⟩
    obtain ⟨round, hround⟩ : ∃ n, n = first + testWidth tested (cond.width inside) := ⟨_, rfl⟩
    obtain ⟨again, hagain⟩ : ∃ n, n = round + body.width (some 0) := ⟨_, rfl⟩
    obtain ⟨back, hback⟩ : ∃ n, n = again + step.width inside := ⟨_, rfl⟩
    rw [← hfirst, ← hround, ← hagain, ← hback]
    have hbody := ihbody (some ⟨back + 1, again, 0⟩) label round
    have htest := becomes_test (hcond first) tested
      (show back + 1 = _ + _ + (body.width (some 0) + step.width inside + 1) by omega)
    have hjump : leap .jump back first = .withDistance .jump
        (-((testWidth tested (cond.width inside) + body.width (some 0) + step.width inside : Nat) + 1 : Int)) :=
      leap_eq (by omega)
    have hexits : ((body.build (some 0)).resolve (body.width (some 0) + step.width inside + 1)
        (body.width (some 0))).Becomes outside round _ :=
      hbody.resolve (show back + 1 = _ by omega) (show again = _ by omega)
    have hclose := ((hstep again).append (Becomes.ofCode [.withDistance .jump
      (-((testWidth tested (cond.width inside) + body.width (some 0) + step.width inside : Nat) + 1 : Int))])).emit
        [.bare .scopeExit, .bare .pushNull]
    rw [Fragment.emit_eq, Fragment.append_assoc] at hclose
    have h := (Becomes.ofCode [.bare .scopeEnter]).append (hinit.append ((htest.at_place (by
      rw [hwidth]
      exact hfirst)).append ((hexits.at_place (by
        rw [length_loopTest, hwidth]
        omega)).append (hclose.at_place (by
          rw [Fragment.length_resolve, length_loopTest, hwidth, length_build]
          omega)))))
    rw [hjump]
    simpa only [List.map_append, List.map_cons, List.map_nil, List.append_assoc, List.cons_append,
      List.nil_append] using h
  | func a ih =>
    rw [build, write, List.map_cons, length_build, leap_eq (d := a.width none) (by omega)]
    exact (Becomes.ofCode _).append (ih none label (k + 1)).inAnyLoop
  | exit again => exact Becomes.exit again around label k

theorem length_write (a : Plan) (around : Option Around) (label : Option Label) (k : Nat) :
    (a.write around label k).length = a.width (around.map Around.scopes) := by
  rw [← length_build, ← (becomes_build a around label k).length, List.length_map]

theorem length_map_write (a : Plan) (around : Option Around) (label : Option Label) (k : Nat) :
    ((a.write around label k).map Prod.fst).length = a.width (around.map Around.scopes) := by
  rw [List.length_map, length_write]

theorem length_map_test (cond : Plan) (around : Option Around) (label : Option Label) (first : Nat)
    (tested : Bool) (jump : Instruction) :
    ((if tested then cond.write around label first ++ [(jump, label)] else []).map Prod.fst).length =
      testWidth tested (cond.width (around.map Around.scopes)) := by
  cases tested with
  | false => rfl
  | true =>
    rw [if_pos rfl, List.length_map, List.length_append, length_write]
    rfl

end Plan
end ScriptEngine
