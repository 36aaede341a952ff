import ScriptEngine.Proofs.Plans.Leaps

/-!
# Where loops are left

In the code of a plan a statement that leaves a loop closes the scopes that are open inside of it and
jumps to the end of the loop, or to the step in front of its next round. Where no loop is around, it is
one instruction that the machine refuses.
-/

namespace ScriptEngine
namespace Plan

/-- The place of a statement that leaves a loop or goes on with its next round. -/
structure Site where
  again : Bool
  start : Nat
  around : Option Around

/-- The statements in a plan at place `k` that leave a loop or go on with its next round. -/
def sites (around : Option Around) (k : Nat) : Plan → List Site
  | ins _ => []
  | seq a b => a.sites around k ++ b.sites around (k + a.width (around.map Around.scopes))
  | node _ _ a => a.sites around k
  | skip _ a => a.sites around (k + 1)
  | choose yes no =>
    yes.sites around (k + 1) ++
      no.sites around (k + 1 + yes.width (around.map Around.scopes) + 1)
  | scope a => a.sites (around.map Around.deeper) (k + 1)
  | loop init tested cond body step =>
    let outside := around.map Around.deeper
    let inside := outside.map Around.scopes
    let first := k + 1 + init.width inside
    let round := first + testWidth tested (cond.width inside)
    let again := round + body.width (some 0)
    let back := again + step.width inside
    init.sites outside (k + 1) ++ (if tested then cond.sites outside first else []) ++
      body.sites (some ⟨back + 1, again, 0⟩) round ++ step.sites outside again
  | func a => a.sites none (k + 1)
  | exit again => [⟨again, k, around⟩]

/-- The place behind the code of the statement. -/
def Site.stop (s : Site) : Nat :=
  s.start + (s.around.map Around.scopes).getD 0 + 1

theorem sites_within (a : Plan) (around : Option Around) (k : Nat) :
    ∀ s ∈ a.sites around k, k ≤ s.start ∧ s.stop ≤ k + a.width (around.map Around.scopes) := by
  induction a generalizing around k with
  | ins code => exact fun _ h => absurd h List.not_mem_nil
  | seq a b iha ihb =>
    rw [sites, width]
    intro s hs
    rcases List.mem_append.mp hs with hs | hs
    · have := iha around k s hs
      omega
    · have := ihb around _ s hs
      omega
  | node kind span a ih => exact ih around k
  | skip op a ih =>
    rw [width]
    intro s hs
    have := ih around (k + 1) s hs
    omega
  | choose yes no ihyes ihno =>
    rw [sites, width]
    intro s hs
    rcases List.mem_append.mp hs with hs | hs
    · have := ihyes around _ s hs
      omega
    · have := ihno around _ s hs
      omega
  | scope a ih =>
    rw [width, ← scopes_deeper]
    intro s hs
    have := ih _ (k + 1) s hs
    omega
  | loop init tested cond body step ihinit ihcond ihbody ihstep =>
    rw [sites, width, ← scopes_deeper]
    intro s hs
    rcases List.mem_append.mp hs with hs | hs
    · rcases List.mem_append.mp hs with hs | hs
      · rcases List.mem_append.mp hs with hs | hs
        · have := ihinit _ _ s hs
          omega
        · cases tested with
          | false => cases hs
          | true =>
            have := ihcond _ _ s hs
            simp only [testWidth, if_true]
            omega
      · have := ihbody _ _ s hs
        simp only [Option.map_some] at this
        omega
    · have := ihstep _ _ s hs
      omega
  | func a ih =>
    rw [width]
    intro s hs
    have := ih none (k + 1) s hs
    rw [Option.map_none] at this
    omega
  | exit again =>
    intro s hs
    rw [List.mem_singleton.mp hs]
    exact ⟨Nat.le_refl _, Nat.le_refl _⟩

theorem pairwise_sites_append {a b : List Site} {k : Nat}
    (ha : a.Pairwise fun s t => s.stop ≤ t.start) (hb : b.Pairwise fun s t => s.stop ≤ t.start)
    (hstop : ∀ s ∈ a, s.stop ≤ k) (hstart : ∀ s ∈ b, k ≤ s.start) :
    (a ++ b).Pairwise fun s t => s.stop ≤ t.start :=
  List.pairwise_append.mpr
    ⟨ha, hb, fun s hs t ht => Nat.le_trans (hstop s hs) (hstart t ht)⟩

/-- The statements stand one behind another. -/
theorem sites_ordered (a : Plan) (around : Option Around) (k : Nat) :
    (a.sites around k).Pairwise fun s t => s.stop ≤ t.start := by
  induction a generalizing around k with
  | ins code => exact List.Pairwise.nil
  | seq a b iha ihb =>
    exact pairwise_sites_append (iha around k) (ihb around _)
      (fun s hs => (sites_within a around k s hs).2) (fun s hs => (sites_within b around _ s hs).1)
  | node kind span a ih => exact ih around k
  | skip op a ih => exact ih around (k + 1)
  | choose yes no ihyes ihno =>
    apply pairwise_sites_append (ihyes around _) (ihno around _) (fun s hs => (sites_within yes around _ s hs).2)
    intro s hs
    have := sites_within no around _ s hs
    omega
  | scope a ih => exact ih _ (k + 1)
  | loop init tested cond body step ihinit ihcond ihbody ihstep =>
    rw [sites]
    generalize around.map Around.deeper = outside
    obtain ⟨first, hfirst⟩ : ∃ n, n = k + 1 + init.width (outside.map Around.scopes) := ⟨_, rfl⟩
    obtain ⟨round, hround⟩ : ∃ n, n = first + testWidth tested (cond.width (outside.map Around.scopes)) :=
      ⟨_, rfl⟩
    obtain ⟨again, hagain⟩ : ∃ n, n = round + body.width (some 0) := ⟨_, rfl⟩
    rw [← hfirst, ← hround, ← hagain]
    have hcond : ∀ s ∈ (if tested then cond.sites outside first else []),
        first ≤ s.start ∧ s.stop ≤ round := by
      intro s hs
      cases tested with
      | false => cases hs
      | true =>
        have := sites_within cond outside first s hs
        rw [testWidth, if_pos rfl] at hround
        omega
    have hinit := sites_within init outside (k + 1)
    have hbody := sites_within body
      (some ⟨again + step.width (outside.map Around.scopes) + 1, again, 0⟩) round
    have hstep := sites_within step outside again
    rw [← hfirst] at hinit
    have hwhere : ∀ s ∈ init.sites outside (k + 1) ++ (if tested then cond.sites outside first else []),
        s.stop ≤ round := by
      rw [List.forall_mem_append]
      exact ⟨fun s hs => by have := hinit s hs; omega, fun s hs => (hcond s hs).2⟩
    have htest : (if tested then cond.sites outside first else []).Pairwise
        fun s t => s.stop ≤ t.start := by
      cases tested with
      | false => exact List.Pairwise.nil
      | true => exact ihcond outside first
    have hfirst := pairwise_sites_append (ihinit outside (k + 1)) htest (fun s hs => (hinit s hs).2)
      fun s hs => (hcond s hs).1
    have hround := pairwise_sites_append hfirst (ihbody _ round) hwhere fun s hs => (hbody s hs).1
    apply pairwise_sites_append hround (ihstep outside again) _ fun s hs => (hstep s hs).1
    rw [List.forall_mem_append]
    constructor
    · intro s hs
      have := hwhere s hs
      omega
    · intro s hs
      rw [hagain]
      exact (hbody s hs).2
  | func a ih => exact ih none (k + 1)
  | exit again => exact List.pairwise_singleton _ _

/-!
# Code at its place
-/

/-- The code has these instructions from place `k` on. -/
def Holds (code : List Instruction) (k : Nat) (part : List Instruction) : Prop :=
  ∀ i ins, part[i]? = some ins → code[k + i]? = some ins

namespace Holds

variable {code part part' : List Instruction} {k : Nat}

theorem all (code : List Instruction) : Holds code 0 code := by
  intro i ins hi
  rwa [Nat.zero_add]

theorem left (h : Holds code k (part ++ part')) : Holds code k part := by
  intro i ins hi
  apply h
  rw [List.getElem?_append_left (List.getElem?_eq_some_iff.mp hi).1]
  exact hi

theorem right {m : Nat} (h : Holds code k (part ++ part')) (hk : k + part.length = m) :
    Holds code m part' := by
  intro i ins hi
  subst hk
  rw [Nat.add_assoc]
  apply h
  rw [List.getElem?_append_right (Nat.le_add_right _ _), Nat.add_sub_cancel_left]
  exact hi

theorem head {ins : Instruction} (h : Holds code k (ins :: part)) : code[k]? = some ins :=
  h 0 ins rfl

theorem tail {ins : Instruction} (h : Holds code k (ins :: part)) : Holds code (k + 1) part :=
  @right code [ins] part k (k + 1) h rfl

end Holds

/-!
# Resolved exits
-/

/-- In the code, the loop jumps back to place `first` right behind its step and then closes its scope. -/
structure Around.Closes (code : List Instruction) (l : Around) (first : Nat) : Prop where
  order : l.again < l.leave
  back : code[l.leave - 1]? = some (leap .jump (l.leave - 1) first)
  close : code[l.leave]? = some (.bare .scopeExit)

/-- In the body of a loop, the statement closes the scopes that are open there and jumps to where the
loop closes its own, or to the step in front of the next round. Elsewhere it is one instruction. -/
def Site.Resolved (code : List Instruction) (s : Site) : Prop :=
  match s.around with
  | none => code[s.start]? = some (.bare (if s.again then .again else .leave))
  | some l =>
    (∀ i < l.scopes, code[s.start + i]? = some (.bare .scopeExit)) ∧
      code[s.start + l.scopes]? =
        some (leap .jump (s.start + l.scopes) (if s.again then l.again else l.leave)) ∧
      ∃ first, l.Closes code first ∧ first ≤ s.start ∧ s.start + l.scopes < l.again

/-- The loop around, if there is one, is laid out around the places from `k` to `stop`. -/
def Inside (code : List Instruction) (around : Option Around) (k stop : Nat) : Prop :=
  ∀ l, around = some l → ∃ first, l.Closes code first ∧ first ≤ k ∧ stop ≤ l.again

namespace Inside

variable {code : List Instruction} {around : Option Around} {k k' stop stop' : Nat}

theorem noLoop (code : List Instruction) (k stop : Nat) : Inside code none k stop := by
  intro l hl
  cases hl

theorem narrow (h : Inside code around k stop) (hk : k ≤ k') (hstop : stop' ≤ stop) :
    Inside code around k' stop' := by
  intro l hl
  obtain ⟨first, hcloses, hfirst, hagain⟩ := h l hl
  exact ⟨first, hcloses, Nat.le_trans hfirst hk, Nat.le_trans hstop hagain⟩

theorem deeper (h : Inside code around k stop) : Inside code (around.map Around.deeper) k stop := by
  intro l hl
  obtain ⟨l', hl', rfl⟩ := Option.map_eq_some_iff.mp hl
  obtain ⟨first, hcloses, hrange⟩ := h l' hl'
  exact ⟨first, ⟨hcloses.order, hcloses.back, hcloses.close⟩, hrange⟩

end Inside

/-- Every exit in a plan that the code has at place `k` is resolved. -/
theorem resolved_sites (a : Plan) (code : List Instruction) (around : Option Around)
    (label : Option Label) (k : Nat) (hcode : Holds code k ((a.write around label k).map Prod.fst))
    (haround : Inside code around k (k + a.width (around.map Around.scopes))) :
    ∀ s ∈ a.sites around k, s.Resolved code := by
  induction a generalizing around label k with
  | ins c => exact fun _ h => absurd h List.not_mem_nil
  | seq a b iha ihb =>
    rw [width] at haround
    rw [write, List.map_append] at hcode
    rw [sites, List.forall_mem_append]
    constructor
    · exact iha around label k hcode.left (haround.narrow (by omega) (by omega))
    · exact ihb around label _ (hcode.right (by rw [length_map_write])) (haround.narrow (by omega) (by omega))
  | node kind span a ih => exact ih around _ k hcode haround
  | skip op a ih =>
    rw [width] at haround
    rw [write, List.map_cons] at hcode
    exact ih around label (k + 1) hcode.tail (haround.narrow (by omega) (by omega))
  | choose yes no ihyes ihno =>
    rw [width] at haround
    rw [write, List.map_append, List.map_cons, List.map_cons] at hcode
    rw [sites, List.forall_mem_append]
    constructor
    · exact ihyes around label (k + 1) hcode.left.tail (haround.narrow (by omega) (by omega))
    · apply ihno around label _ _ (haround.narrow (by omega) (by omega))
      apply (hcode.right _).tail
      rw [List.length_cons, length_map_write]
      omega
  | scope a ih =>
    rw [width, ← scopes_deeper] at haround
    rw [write, List.map_append, List.map_cons] at hcode
    exact ih (around.map Around.deeper) label (k + 1) hcode.left.tail
      (haround.deeper.narrow (by omega) (by omega))
  | loop init tested cond body step ihinit ihcond ihbody ihstep =>
    rw [width, ← scopes_deeper] at haround
    replace haround := haround.deeper
    rw [write] at hcode
    rw [sites]
    generalize around.map Around.deeper = outside at *
    obtain ⟨first, hfirst⟩ : ∃ n, n = k + 1 + init.width (outside.map Around.scopes) := ⟨_, rfl⟩
    obtain ⟨round, hround⟩ : ∃ n, n = first + testWidth tested (cond.width (outside.map Around.scopes)) :=
      ⟨_, rfl⟩
    obtain ⟨again, hagain⟩ : ∃ n, n = round + body.width (some 0) := ⟨_, rfl⟩
    obtain ⟨back, hback⟩ : ∃ n, n = again + step.width (outside.map Around.scopes) := ⟨_, rfl⟩
    rw [← hfirst, ← hround, ← hagain, ← hback] at hcode ⊢
    simp only [List.map_append, List.map_cons, List.map_nil, List.append_assoc, List.cons_append] at hcode
    -- the parts at their places
    have hinit := hcode.tail
    have htest := hinit.right (m := first) (by rw [length_map_write, hfirst])
    have hbody := htest.right (m := round) (by rw [length_map_test, hround])
    have hstep := hbody.right (m := again) (by
      rw [length_map_write, hagain]
      rfl)
    have hback := hstep.right (m := back) (by rw [length_map_write, hback])
    have hclose : (Around.mk (back + 1) again 0).Closes code first := by
      constructor
      · show again < back + 1
        omega
      · exact hback.head
      · exact hback.tail.head
    simp only [List.forall_mem_append]
    refine ⟨⟨⟨?_, ?_⟩, ?_⟩, ?_⟩
    · exact ihinit outside label (k + 1) hinit.left (haround.narrow (by omega) (by omega))
    · cases tested with
      | false => exact fun _ h => absurd h List.not_mem_nil
      | true =>
        rw [if_pos rfl, List.map_append] at htest
        rw [testWidth, if_pos rfl] at hround haround
        exact ihcond outside label first htest.left.left (haround.narrow (by omega) (by omega))
    · apply ihbody _ label round hbody.left
      intro l hl
      cases hl
      exact ⟨first, hclose, by omega, Nat.le_of_eq hagain.symm⟩
    · exact ihstep outside label again hstep.left (haround.narrow (by omega) (by omega))
  | func a ih =>
    rw [write, List.map_cons] at hcode
    exact ih none label (k + 1) hcode.tail (Inside.noLoop _ _ _)
  | exit again =>
    cases around with
    | none =>
      rintro s hs
      rw [List.mem_singleton.mp hs]
      exact hcode.head
    | some l =>
      rintro s hs
      rw [List.mem_singleton.mp hs]
      obtain ⟨first, hcloses, hfirst, hagain⟩ := haround l rfl
      rw [write, List.map_append, List.map_replicate] at hcode
      refine ⟨?_, ?_, first, hcloses, hfirst, hagain⟩
      · intro i hi
        apply hcode.left
        rw [List.getElem?_replicate, if_pos hi]
      · exact (hcode.right (by rw [List.length_replicate])).head

/-!
# Exits that remain
-/

/-- An exit that stands for itself. -/
def exitAlone (again : Bool) : Instruction :=
  .bare (if again then .again else .leave)

theorem placed_exitAlone (again : Bool) : (exitAlone again).placed = true := by
  cases again <;> rfl

/-- Every exit that stands for itself in the code, which stands at place `k`, is one of these sites. -/
def Remain (l : List Site) (k : Nat) (code : List Instruction) : Prop :=
  ∀ i again, code[i]? = some (exitAlone again) → ⟨again, k + i, none⟩ ∈ l

namespace Remain

variable {l l' : List Site} {k : Nat} {code code' : List Instruction}

theorem nothing (h : ∀ ins ∈ code, ins.placed = false) : Remain l k code := by
  intro i again hi
  have hplaced := h _ (List.mem_of_getElem? hi)
  rw [placed_exitAlone] at hplaced
  cases hplaced

theorem jump (op : Operation) (target : Nat) : Remain l k [leap op k target] := by
  intro i again hi
  obtain ⟨hlt, hsame⟩ := List.getElem?_eq_some_iff.mp hi
  have hzero : i = 0 := Nat.lt_one_iff.mp hlt
  subst hzero
  cases congrArg Instruction.operand hsame

theorem append {k' : Nat} (h : Remain l k code) (hk : k + code.length = k') (h' : Remain l' k' code') :
    Remain (l ++ l') k (code ++ code') := by
  intro i again hi
  by_cases hlt : i < code.length
  · rw [List.getElem?_append_left hlt] at hi
    exact List.mem_append_left _ (h i again hi)
  · rw [List.getElem?_append_right (Nat.le_of_not_lt hlt)] at hi
    have hmem := h' _ again hi
    rw [show k' + (i - code.length) = k + i by omega] at hmem
    exact List.mem_append_right _ hmem

theorem cons {ins : Instruction} (h : Remain [] k [ins]) (h' : Remain l (k + 1) code) :
    Remain l k (ins :: code) :=
  h.append rfl h'

end Remain

/-- An exit stands for itself only where no loop is around it. -/
theorem remain_write (a : Plan) (around : Option Around) (label : Option Label) (k : Nat)
    (hsound : a.sound = true) :
    Remain (a.sites around k) k ((a.write around label k).map Prod.fst) := by
  induction a generalizing around label k with
  | ins code =>
    rw [map_write_ins]
    apply Remain.nothing
    intro ins hins
    simpa using List.all_eq_true.mp hsound ins hins
  | seq a b iha ihb =>
    obtain ⟨hsa, hsb⟩ := Bool.and_eq_true_iff.mp hsound
    rw [write, List.map_append]
    exact (iha around label k hsa).append (by rw [length_map_write]) (ihb around label _ hsb)
  | node kind span a ih => exact ih around _ k hsound
  | skip op a ih =>
    rw [write, List.map_cons]
    exact (Remain.jump op _).cons (ih around label (k + 1) (Bool.and_eq_true_iff.mp hsound).2)
  | choose yes no ihyes ihno =>
    obtain ⟨hsyes, hsno⟩ := Bool.and_eq_true_iff.mp hsound
    rw [write, List.map_append, List.map_cons, List.map_cons]
    obtain ⟨other, hother⟩ : ∃ n, n = k + 1 + yes.width (around.map Around.scopes) := ⟨_, rfl⟩
    rw [sites, ← hother]
    have hyes := (Remain.jump .jumpIfFalse (other + 1)).cons (ihyes around label (k + 1) hsyes)
    have hno := (Remain.jump .jump (other + 1 + no.width (around.map Around.scopes))).cons
      (ihno around label (other + 1) hsno)
    exact hyes.append
      (by
        rw [List.length_cons, length_map_write]
        omega) hno
  | scope a ih =>
    have ha := ih (around.map Around.deeper) label (k + 1) hsound
    have hclose : Remain [] (k + 1 + a.width ((around.map Around.deeper).map Around.scopes))
      [.bare .scopeExit] := Remain.nothing (by simp)
    rw [write, List.map_append, List.map_cons, sites]
    have h := ha.append (by rw [length_map_write]) hclose
    rw [List.append_nil] at h
    exact (Remain.nothing (by simp)).cons h
  | loop init tested cond body step ihinit ihcond ihbody ihstep =>
    obtain ⟨hsinit, hsound⟩ := Bool.and_eq_true_iff.mp hsound
    obtain ⟨hscond, hsound⟩ := Bool.and_eq_true_iff.mp hsound
    obtain ⟨hsbody, hsstep⟩ := Bool.and_eq_true_iff.mp hsound
    rw [write, sites]
    generalize around.map Around.deeper = outside
    obtain ⟨first, hfirst⟩ : ∃ n, n = k + 1 + init.width (outside.map Around.scopes) := ⟨_, rfl⟩
    obtain ⟨round, hround⟩ : ∃ n, n = first + testWidth tested (cond.width (outside.map Around.scopes)) :=
      ⟨_, rfl⟩
    obtain ⟨again, hagain⟩ : ∃ n, n = round + body.width (some 0) := ⟨_, rfl⟩
    obtain ⟨back, hback⟩ : ∃ n, n = again + step.width (outside.map Around.scopes) := ⟨_, rfl⟩
    rw [← hfirst, ← hround, ← hagain, ← hback]
    simp only [List.map_append, List.map_cons, List.map_nil, List.append_assoc, List.cons_append]
    have htest : Remain (if tested then cond.sites outside first else []) first
        ((if tested then
          cond.write outside label first ++
            [(leap .jumpIfFalse (first + cond.width (outside.map Around.scopes)) (back + 1), label)]
        else []).map Prod.fst) := by
      cases tested with
      | false => exact Remain.nothing fun _ h => absurd h List.not_mem_nil
      | true =>
        have h := (ihcond outside label first hscond).append (by rw [length_map_write])
          (Remain.jump (l := []) .jumpIfFalse (back + 1))
        rw [List.append_nil] at h
        rw [if_pos rfl, if_pos rfl, List.map_append]
        exact h
    have hclose : Remain [] (back + 1) [.bare .scopeExit, .bare .pushNull] := Remain.nothing (by simp)
    have hstep := (ihstep outside label again hsstep).append (by rw [length_map_write, hback])
      ((Remain.jump .jump first).cons hclose)
    have hbody := (ihbody (some ⟨back + 1, again, 0⟩) label round hsbody).append
      (by
        rw [length_map_write, hagain]
        rfl) hstep
    have hrounds := htest.append (by rw [length_map_test, hround]) hbody
    have hall := (ihinit outside label (k + 1) hsinit).append (by rw [length_map_write, hfirst]) hrounds
    rw [List.append_nil] at hall
    exact (Remain.nothing (by simp)).cons hall
  | func a ih =>
    rw [write, List.map_cons]
    exact (Remain.jump .buildFunc _).cons (ih none label (k + 1) (Bool.and_eq_true_iff.mp hsound).1)
  | exit again =>
    cases around with
    | none =>
      intro i again' hi
      obtain ⟨hlt, hsame⟩ := List.getElem?_eq_some_iff.mp hi
      have hzero : i = 0 := Nat.lt_one_iff.mp hlt
      subst hzero
      have hagain : again = again' := by
        cases again <;> cases again' <;> first | rfl | cases hsame
      rw [hagain]
      exact List.mem_singleton_self _
    | some l =>
      rw [write, List.map_append, List.map_replicate]
      have hscopes : Remain [] k (List.replicate l.scopes (.bare .scopeExit)) :=
        Remain.nothing fun ins hins => by
          rw [List.eq_of_mem_replicate hins]
          rfl
      exact hscopes.append (by rw [List.length_replicate]) (Remain.jump _ _)

end Plan
end ScriptEngine
