import ScriptEngine.Proofs.Number.Integers
import ScriptEngine.Proofs.Plans.Writing

/-!
# Where distances lead

In the code of a plan every distance leads to a place inside of the plan or to an exit of the loop
around it, and never from inside of a function to its outside or from outside to inside.
-/

namespace ScriptEngine

/-!
# Distances are read in one way
-/

theorem Number.splitSign_ofInt (i : Int) :
    Number.splitSign (Text.ofInt i).toList =
      (decide (i < 0), (Nat.toDigits 10 i.natAbs).map Text.plainByte) := by
  rw [toList_ofInt]
  by_cases hi : i < 0
  · rw [if_pos hi, decide_eq_true hi]
    rfl
  · rw [if_neg hi, decide_eq_false hi]
    exact splitSign_toDigits _

theorem Text.ofInt_injective {i j : Int} (h : Text.ofInt i = Text.ofInt j) : i = j := by
  have hsplit := Number.splitSign_ofInt i
  rw [h, Number.splitSign_ofInt j] at hsplit
  obtain ⟨hsign, hdigits⟩ := Prod.mk.inj hsplit
  have hsign : (j < 0) ↔ (i < 0) := decide_eq_decide.mp hsign
  have habs := congrArg Number.readNat? hdigits
  rw [Number.readNat?_toDigits, Number.readNat?_toDigits] at habs
  have habs : j.natAbs = i.natAbs := Option.some.inj habs
  omega

/-- The operation leads to another place. -/
@[simp] def Operation.leads : Operation → Bool
  | .buildFunc | .jump | .jumpIfFalsePeek | .jumpIfTruePeek | .jumpIfFalse => true
  | _ => false

/-- The operand of the instruction is a distance. -/
def Instruction.leads (i : Instruction) : Bool :=
  i.op.operandKind == .jump

@[simp] theorem Instruction.leads_bare (op : Operation) : (bare op).leads = op.leads := by
  cases op <;> rfl

theorem Instruction.leads_of_placed {i : Instruction} (h : i.placed = false) : i.leads = false := by
  unfold placed at h
  unfold leads Opcode.operandKind
  cases hop : i.op.operation? with
  | none => rfl
  | some op =>
    rw [hop, Option.any_some] at h
    cases op <;> first | rfl | cases h

namespace Plan

theorem leap_injective {op op' : Operation} {i target target' : Nat}
    (h : leap op i target = leap op' i target') : op = op' ∧ target = target' := by
  have hop : op.byte = op'.byte := congrArg (fun ins => ins.op.byte) h
  have hdistance := Text.ofInt_injective (Option.some.inj (congrArg Instruction.operand h))
  constructor
  · have hread := Operation.ofByte?_byte op
    rw [hop, Operation.ofByte?_byte] at hread
    exact (Option.some.inj hread).symm
  · omega

@[simp] theorem leads_leap (op : Operation) (i target : Nat) : (leap op i target).leads = op.leads :=
  Instruction.leads_bare op

/-!
# Code that leads nowhere else
-/

/-- Every distance in the code, which stands at place `k`, leads to a place of it in front of `stop` or
to one of the places `out` that are known outside. The body of a function stands inside of the code,
and distances cross neither its start nor its end. -/
structure Leads (out : Nat → Prop) (k stop : Nat) (code : List Instruction) : Prop where
  jumps : ∀ i ins, code[i]? = some ins → ins.leads = true →
    ∃ op target, ins = leap op (k + i) target ∧ (out target ∨ k ≤ target ∧ target < stop)
  bodies : ∀ b last, code[b]? = some (leap .buildFunc (k + b) last) →
    (k + b < last ∧ last ≤ k + code.length) ∧ (∀ t, out t → ¬ (k + b < t ∧ t < last)) ∧
      ∀ i op target, code[i]? = some (leap op (k + i) target) → op.leads = true →
        (b < i ∧ k + i < last ↔ k + b < target ∧ target < last)

namespace Leads

variable {out : Nat → Prop} {k stop stop' : Nat} {code code' : List Instruction}

theorem plain (h : ∀ ins ∈ code, ins.leads = false) : Leads out k stop code where
  jumps i ins hi hleads := by
    rw [h ins (List.mem_of_getElem? hi)] at hleads
    cases hleads
  bodies b last hb := by
    have hplain := h _ (List.mem_of_getElem? hb)
    rw [leads_leap] at hplain
    cases hplain

theorem jump {op : Operation} {target : Nat} (hop : op ≠ .buildFunc) (hout : out target) :
    Leads out k stop [leap op k target] where
  jumps i ins hi _ := by
    obtain ⟨hlt, rfl⟩ := List.getElem?_eq_some_iff.mp hi
    have hzero : i = 0 := Nat.lt_one_iff.mp hlt
    subst hzero
    exact ⟨op, target, rfl, Or.inl hout⟩
  bodies b last hb := by
    obtain ⟨hlt, hsame⟩ := List.getElem?_eq_some_iff.mp hb
    have hzero : b = 0 := Nat.lt_one_iff.mp hlt
    subst hzero
    exact absurd (leap_injective hsame).1 hop

/-- Where a distance in the code leads. -/
theorem lands (h : Leads out k stop code) {i : Nat} {op : Operation} {target : Nat}
    (hi : code[i]? = some (leap op (k + i) target)) (hop : op.leads = true) :
    out target ∨ k ≤ target ∧ target < stop := by
  obtain ⟨op', target', hsame, htarget⟩ := h.jumps i _ hi ((leads_leap _ _ _).trans hop)
  rwa [(leap_injective hsame).2]

theorem append {k' m : Nat} (hc : Leads out k stop code) (hk : k + code.length = k')
    (hd : Leads out k' stop' code') (hstop : stop ≤ k' + 1) (hle : stop ≤ m) (hle' : stop' ≤ m) :
    Leads out k m (code ++ code') where
  jumps i ins hi hleads := by
    by_cases hlt : i < code.length
    · rw [List.getElem?_append_left hlt] at hi
      obtain ⟨op, target, hins, htarget⟩ := hc.jumps i ins hi hleads
      exact ⟨op, target, hins, htarget.imp_right fun h => ⟨h.1, Nat.lt_of_lt_of_le h.2 hle⟩⟩
    · rw [List.getElem?_append_right (Nat.le_of_not_lt hlt)] at hi
      obtain ⟨op, target, hins, htarget⟩ := hd.jumps _ ins hi hleads
      rw [show k' + (i - code.length) = k + i by omega] at hins
      exact ⟨op, target, hins, htarget.imp_right fun h => ⟨by omega, Nat.lt_of_lt_of_le h.2 hle'⟩⟩
  bodies b stop hb := by
    rw [List.length_append]
    by_cases hlt : b < code.length
    · rw [List.getElem?_append_left hlt] at hb
      obtain ⟨⟨hlow, hhigh⟩, havoid, hsides⟩ := hc.bodies b stop hb
      refine ⟨⟨hlow, by omega⟩, havoid, ?_⟩
      intro i op target hi hop
      by_cases hilt : i < code.length
      · rw [List.getElem?_append_left hilt] at hi
        exact hsides i op target hi hop
      · rw [List.getElem?_append_right (Nat.le_of_not_lt hilt),
          show k + i = k' + (i - code.length) by omega] at hi
        have := (hd.lands hi hop).imp_left (havoid target)
        omega
    · rw [List.getElem?_append_right (Nat.le_of_not_lt hlt),
        show k + b = k' + (b - code.length) by omega] at hb
      obtain ⟨⟨hlow, hhigh⟩, havoid, hsides⟩ := hd.bodies _ stop hb
      rw [show k' + (b - code.length) = k + b by omega] at hlow havoid hsides
      refine ⟨⟨hlow, by omega⟩, havoid, ?_⟩
      intro i op target hi hop
      by_cases hilt : i < code.length
      · rw [List.getElem?_append_left hilt] at hi
        have := (hc.lands hi hop).imp_left (havoid target)
        omega
      · rw [List.getElem?_append_right (Nat.le_of_not_lt hilt),
          show k + i = k' + (i - code.length) by omega] at hi
        have := hsides _ op target hi hop
        omega

/-- Places inside need not be known outside. -/
theorem close {inner : Nat → Prop} (h : Leads inner k stop code) (hout : ∀ t, out t → inner t)
    (hinner : ∀ t, inner t → out t ∨ k ≤ t ∧ t < stop') (hle : stop ≤ stop') :
    Leads out k stop' code where
  jumps i ins hi hleads := by
    obtain ⟨op, target, hins, htarget⟩ := h.jumps i ins hi hleads
    refine ⟨op, target, hins, ?_⟩
    rcases htarget with htarget | htarget
    · exact hinner target htarget
    · exact Or.inr ⟨htarget.1, Nat.lt_of_lt_of_le htarget.2 hle⟩
  bodies b last hb := by
    obtain ⟨hrange, havoid, hsides⟩ := h.bodies b last hb
    exact ⟨hrange, fun t ht => havoid t (hout t ht), hsides⟩

/-- A function, whose own distances lead inside of it. -/
theorem func (h : Leads (fun _ => False) (k + 1) (k + 1 + code.length) code)
    (hout : ∀ t, out t → t ≤ k ∨ k + 1 + code.length ≤ t) (hstop : k + 1 + code.length < stop) :
    Leads out k stop (leap .buildFunc k (k + 1 + code.length) :: code) where
  jumps i ins hi hleads := by
    cases i with
    | zero =>
      rw [← Option.some.inj hi]
      exact ⟨.buildFunc, _, rfl, Or.inr ⟨by omega, hstop⟩⟩
    | succ i =>
      obtain ⟨op, target, hins, htarget⟩ := h.jumps i ins hi hleads
      rw [show k + 1 + i = k + (i + 1) by omega] at hins
      refine ⟨op, target, hins, Or.inr ?_⟩
      have := htarget.resolve_left id
      omega
  bodies b last hb := by
    rw [List.length_cons]
    have hinside : ∀ {i op target}, code[i]? = some (leap op (k + (i + 1)) target) → op.leads = true →
        k + 1 ≤ target ∧ target < k + 1 + code.length := by
      intro i op target hi hop
      rw [show k + (i + 1) = k + 1 + i by omega] at hi
      exact (h.lands hi hop).resolve_left id
    cases b with
    | zero =>
      obtain ⟨-, rfl⟩ := leap_injective (Option.some.inj hb)
      refine ⟨by omega, fun t ht => by have := hout t ht; omega, ?_⟩
      intro i op target hi hop
      cases i with
      | zero =>
        obtain ⟨-, rfl⟩ := leap_injective (Option.some.inj hi)
        omega
      | succ i =>
        have hlt : i < code.length := Nat.lt_of_succ_lt_succ (List.getElem?_eq_some_iff.mp hi).1
        have := hinside hi hop
        omega
    | succ b =>
      rw [List.getElem?_cons_succ, show k + (b + 1) = k + 1 + b by omega] at hb
      obtain ⟨⟨hlow, hhigh⟩, -, hsides⟩ := h.bodies b last hb
      refine ⟨by omega, fun t ht => by have := hout t ht; omega, ?_⟩
      intro i op target hi hop
      cases i with
      | zero =>
        obtain ⟨-, rfl⟩ := leap_injective (Option.some.inj hi)
        omega
      | succ i =>
        rw [List.getElem?_cons_succ, show k + (i + 1) = k + 1 + i by omega] at hi
        have := hsides i op target hi hop
        omega

end Leads

/-- Outside of loops an exit has fewer instructions. -/
theorem width_none_le (a : Plan) (scopes : Option Nat) : a.width none ≤ a.width scopes := by
  induction a generalizing scopes with
  | ins code => exact Nat.le_refl _
  | seq a b iha ihb => exact Nat.add_le_add (iha scopes) (ihb scopes)
  | node kind span a ih => exact ih scopes
  | skip op a ih => exact Nat.add_le_add_left (ih scopes) 1
  | choose yes no ihyes ihno =>
    have hyes := ihyes scopes
    have hno := ihno scopes
    simp only [width]
    omega
  | scope a ih =>
    have ha := ih (scopes.map (· + 1))
    simp only [width, Option.map_none]
    omega
  | loop init tested cond body step ihinit ihcond _ ihstep =>
    have hinit := ihinit (scopes.map (· + 1))
    have hcond := ihcond (scopes.map (· + 1))
    have hstep := ihstep (scopes.map (· + 1))
    cases tested with
    | false =>
      simp only [width, testWidth, Option.map_none, Bool.false_eq_true, if_false]
      omega
    | true =>
      simp only [width, testWidth, Option.map_none, if_true]
      omega
  | func a ih => exact Nat.le_refl _
  | exit again =>
    simp only [width, Option.getD_none]
    omega

/-- The first place that no jump of the plan at place `k` leads to. -/
def stop (scopes : Option Nat) (k : Nat) (a : Plan) : Nat :=
  k + a.width scopes + (if a.ended then 0 else 1)

theorem stop_le (scopes : Option Nat) (k : Nat) (a : Plan) :
    a.stop scopes k ≤ k + a.width scopes + 1 := by
  unfold stop
  split <;> omega

/-- The test of a loop may lead out of it. -/
theorem leads_test {cond : Plan} {around : Option Around} {out : Nat → Prop} {first leave : Nat}
    (label : Option Label)
    (tested : Bool) (hcond : tested = true → Leads out first (cond.stop (around.map Around.scopes) first)
      ((cond.write around label first).map Prod.fst))
    (hleave : out leave) :
    Leads out first (first + testWidth tested (cond.width (around.map Around.scopes)) + 1)
      ((if tested then
        cond.write around label first ++
          [(leap .jumpIfFalse (first + cond.width (around.map Around.scopes)) leave, label)]
      else []).map Prod.fst) := by
  cases tested with
  | false => exact Leads.plain fun _ h => absurd h List.not_mem_nil
  | true =>
    have hstop := stop_le (around.map Around.scopes) first cond
    have hjump : Leads out (first + cond.width (around.map Around.scopes))
        (first + cond.width (around.map Around.scopes))
        [leap .jumpIfFalse (first + cond.width (around.map Around.scopes)) leave] :=
      Leads.jump (by decide) hleave
    rw [if_pos rfl, List.map_append]
    unfold testWidth
    rw [if_pos rfl]
    apply (hcond rfl).append (by rw [length_map_write]) hjump hstop
    · omega
    · omega

/-- No distance of a sound plan leads away, but to the exits of the loop around. -/
theorem leads_write (a : Plan) (around : Option Around) (label : Option Label) (k : Nat)
    (out : Nat → Prop) (hsound : a.sound = true)
    (haround : ∀ l, around = some l → out l.leave ∧ out l.again)
    (hout : ∀ t, out t → t ≤ k ∨ k + a.width (around.map Around.scopes) ≤ t) :
    Leads out k (a.stop (around.map Around.scopes) k) ((a.write around label k).map Prod.fst) := by
  induction a generalizing around label k out with
  | ins code =>
    rw [map_write_ins]
    apply Leads.plain
    intro ins hins
    apply Instruction.leads_of_placed
    simpa using List.all_eq_true.mp hsound ins hins
  | seq a b iha ihb =>
    obtain ⟨hsa, hsb⟩ := Bool.and_eq_true_iff.mp hsound
    rw [width] at hout
    have ha := iha around label k out hsa haround fun t ht => by have := hout t ht; omega
    have hb := ihb around label (k + a.width (around.map Around.scopes)) out hsb haround
      fun t ht => by have := hout t ht; omega
    rw [write, List.map_append]
    apply ha.append (by rw [length_map_write]) hb (stop_le _ _ _)
    · have hnone := width_none_le b (around.map Around.scopes)
      simp only [stop, ended, width, Bool.and_eq_true, Bool.or_eq_true, decide_eq_true_eq]
      split <;> split <;> grind
    · simp only [stop, ended, width, Bool.and_eq_true]
      split <;> split <;> grind
  | node kind span a ih =>
    exact ih around _ k out hsound haround hout
  | skip op a ih =>
    obtain ⟨hop, hsa⟩ := Bool.and_eq_true_iff.mp hsound
    rw [show (skip op a).stop (around.map Around.scopes) k =
      k + (1 + a.width (around.map Around.scopes)) + 1 from rfl]
    rw [width] at hout
    have hstop := stop_le (around.map Around.scopes) (k + 1) a
    obtain ⟨other, hother⟩ : ∃ n, n = k + 1 + a.width (around.map Around.scopes) := ⟨_, rfl⟩
    have ha := ih around label (k + 1) (fun t => out t ∨ t = other) hsa
      (fun l hl => (haround l hl).imp Or.inl Or.inl) (fun t ht => by have := ht.imp_left (hout t); omega)
    have hjump : Leads (fun t => out t ∨ t = other) k (k + 1) [leap op k other] :=
      Leads.jump (by simpa using hop) (Or.inr rfl)
    rw [write, List.map_cons, ← hother]
    apply (hjump.append rfl ha (m := other + 1) (by omega) (by omega) (by omega)).close
    · exact fun t => Or.inl
    · exact fun t ht => ht.imp_right fun h => by omega
    · omega
  | choose yes no ihyes ihno =>
    obtain ⟨hsyes, hsno⟩ := Bool.and_eq_true_iff.mp hsound
    rw [show (choose yes no).stop (around.map Around.scopes) k =
      k + (1 + yes.width (around.map Around.scopes) + 1 + no.width (around.map Around.scopes)) + 1 from rfl]
    rw [width] at hout
    have hyesstop := stop_le (around.map Around.scopes) (k + 1) yes
    have hnostop := stop_le (around.map Around.scopes)
      (k + 1 + yes.width (around.map Around.scopes) + 1) no
    have hlen := length_map_write yes around label (k + 1)
    rw [write, List.map_append, List.map_cons, List.map_cons]
    obtain ⟨other, hother⟩ : ∃ n, n = k + 1 + yes.width (around.map Around.scopes) := ⟨_, rfl⟩
    obtain ⟨behind, hbehind⟩ : ∃ n, n = other + 1 + no.width (around.map Around.scopes) := ⟨_, rfl⟩
    rw [← hother] at hnostop
    rw [← hother, ← hbehind]
    have hinner : ∀ t, (out t ∨ t = other + 1 ∨ t = behind) →
        t ≤ k ∨ t = other + 1 ∨ behind ≤ t := by
      intro t ht
      have := ht.imp_left (hout t)
      omega
    have hyes := ihyes around label (k + 1) (fun t => out t ∨ t = other + 1 ∨ t = behind) hsyes
      (fun l hl => (haround l hl).imp Or.inl Or.inl) (fun t ht => by have := hinner t ht; omega)
    have hno := ihno around label (other + 1) (fun t => out t ∨ t = other + 1 ∨ t = behind) hsno
      (fun l hl => (haround l hl).imp Or.inl Or.inl) (fun t ht => by have := hinner t ht; omega)
    have htest : Leads (fun t => out t ∨ t = other + 1 ∨ t = behind) k (k + 1)
        [leap .jumpIfFalse k (other + 1)] := Leads.jump (by decide) (Or.inr (Or.inl rfl))
    have hjump : Leads (fun t => out t ∨ t = other + 1 ∨ t = behind) other (other + 1)
        [leap .jump other behind] := Leads.jump (by decide) (Or.inr (Or.inr rfl))
    have hfirst := htest.append rfl hyes (m := other + 1) (by omega) (by omega) (by omega)
    have hsecond := hjump.append rfl hno (m := behind + 1) (by omega) (by omega) (by omega)
    have hlength : k + ([leap .jumpIfFalse k (other + 1)] ++
        (yes.write around label (k + 1)).map Prod.fst).length = other := by
      rw [List.length_append, hlen, List.length_singleton]
      omega
    apply (hfirst.append hlength hsecond (m := behind + 1) (by omega) (by omega) (by omega)).close
    · exact fun t => Or.inl
    · exact fun t ht => ht.imp_right fun h => by omega
    · omega
  | scope a ih =>
    rw [show (scope a).stop (around.map Around.scopes) k =
      k + (1 + a.width ((around.map Around.scopes).map (· + 1)) + 1) from rfl]
    rw [width] at hout
    have hlen := length_map_write a (around.map Around.deeper) label (k + 1)
    have ha := ih (around.map Around.deeper) label (k + 1) out hsound
      (by
        intro l hl
        obtain ⟨l', hl', rfl⟩ := Option.map_eq_some_iff.mp hl
        exact haround l' hl')
      (fun t ht => by have := hout t ht; rw [scopes_deeper]; omega)
    have hstop := stop_le ((around.map Around.deeper).map Around.scopes) (k + 1) a
    rw [scopes_deeper] at hlen ha hstop
    have henter : Leads out k k [.bare .scopeEnter] := Leads.plain (by simp)
    have hleave : Leads out (k + 1 + a.width ((around.map Around.scopes).map (· + 1)))
        (k + 1 + a.width ((around.map Around.scopes).map (· + 1))) [.bare .scopeExit] := Leads.plain (by simp)
    rw [write, List.map_append, List.map_cons]
    apply (henter.append rfl ha (m := k + 1 + a.width ((around.map Around.scopes).map (· + 1)) + 1)
      (by omega) (by omega) (by omega)).append
      (by rw [List.length_append, hlen, List.length_singleton]; omega) hleave
    · omega
    · omega
    · omega
  | loop init tested cond body step ihinit ihcond ihbody ihstep =>
    obtain ⟨hsinit, hsound⟩ := Bool.and_eq_true_iff.mp hsound
    obtain ⟨hscond, hsound⟩ := Bool.and_eq_true_iff.mp hsound
    obtain ⟨hsbody, hsstep⟩ := Bool.and_eq_true_iff.mp hsound
    have hloop : (loop init tested cond body step).stop (around.map Around.scopes) k =
      k + (loop init tested cond body step).width (around.map Around.scopes) := rfl
    rw [hloop]
    replace haround : ∀ l, around.map Around.deeper = some l → out l.leave ∧ out l.again := by
      intro l hl
      obtain ⟨l', hl', rfl⟩ := Option.map_eq_some_iff.mp hl
      exact haround l' hl'
    rw [width, ← scopes_deeper] at hout ⊢
    rw [write]
    generalize around.map Around.deeper = outside at *
    -- the places of the parts
    obtain ⟨first, hfirst⟩ : ∃ n, n = k + 1 + init.width (outside.map Around.scopes) := ⟨_, rfl⟩
    obtain ⟨round, hround⟩ : ∃ n, n = first + testWidth tested (cond.width (outside.map Around.scopes)) :=
      ⟨_, rfl⟩
    obtain ⟨again, hagain⟩ : ∃ n, n = round + body.width (some 0) := ⟨_, rfl⟩
    obtain ⟨back, hback⟩ : ∃ n, n = again + step.width (outside.map Around.scopes) := ⟨_, rfl⟩
    rw [← hfirst, ← hround, ← hagain, ← hback]
    -- where the parts may lead
    obtain ⟨inner, hinner⟩ : ∃ inner : Nat → Prop,
        inner = fun t => out t ∨ t = first ∨ t = again ∨ t = back + 1 := ⟨_, rfl⟩
    have hmem : inner first ∧ inner again ∧ inner (back + 1) := by
      rw [hinner]
      exact ⟨Or.inr (Or.inl rfl), Or.inr (Or.inr (Or.inl rfl)), Or.inr (Or.inr (Or.inr rfl))⟩
    have hplace : ∀ t, inner t → t ≤ k ∨ t = first ∨ t = again ∨ t = back + 1 ∨ back + 3 ≤ t := by
      intro t ht
      rw [hinner] at ht
      have := ht.imp_left (hout t)
      omega
    have hinside : ∀ l, outside = some l → inner l.leave ∧ inner l.again := by
      intro l hl
      rw [hinner]
      exact (haround l hl).imp Or.inl Or.inl
    have henter : Leads inner k k [.bare .scopeEnter] := Leads.plain (by simp)
    have hinit := ihinit outside label (k + 1) inner hsinit hinside
      fun t ht => by have := hplace t ht; omega
    have htest := leads_test label tested (fun htested =>
      ihcond outside label first inner hscond hinside fun t ht => by
        have := hplace t ht
        rw [htested, testWidth, if_pos rfl] at hround
        omega) hmem.2.2
    have hbody := ihbody (some ⟨back + 1, again, 0⟩) label round inner hsbody
      (by
        intro l hl
        cases hl
        exact ⟨hmem.2.2, hmem.2.1⟩)
      (fun t ht => by
        have := hplace t ht
        show t ≤ round ∨ round + body.width (some 0) ≤ t
        omega)
    have hstep := ihstep outside label again inner hsstep hinside
      fun t ht => by have := hplace t ht; omega
    have hback : Leads inner back back [leap .jump back first] := Leads.jump (by decide) hmem.1
    have hclose : Leads inner (back + 1) (back + 1) [.bare .scopeExit, .bare .pushNull] :=
      Leads.plain (by simp)
    -- their lengths and the places in front of which they end
    have hlinit := length_map_write init outside label (k + 1)
    have hltest := length_map_test cond outside label first tested
      (leap .jumpIfFalse (first + cond.width (outside.map Around.scopes)) (back + 1))
    have hlbody : ((body.write (some ⟨back + 1, again, 0⟩) label round).map Prod.fst).length =
      body.width (some 0) := length_map_write body _ label round
    have hlstep := length_map_write step outside label again
    have hinitstop := stop_le (outside.map Around.scopes) (k + 1) init
    have hbodystop : body.stop (some 0) round ≤ round + body.width (some 0) + 1 := stop_le _ _ _
    have hstepstop := stop_le (outside.map Around.scopes) again step
    have hupto : Leads inner k (first + 1) _ :=
      henter.append rfl hinit (by omega) (by omega) (by omega)
    have hupto : Leads inner k (round + 1) _ :=
      hupto.append (by simp only [List.length_append, List.length_singleton, hlinit]; omega) htest
        (by omega) (by omega) (by omega)
    have hupto : Leads inner k (again + 1) _ :=
      hupto.append (by simp only [List.length_append, List.length_singleton, hlinit, hltest]; omega)
        hbody (by omega) (by omega) (hagain ▸ hbodystop)
    have hupto : Leads inner k (back + 1) _ :=
      hupto.append
        (by simp only [List.length_append, List.length_singleton, hlinit, hltest, hlbody]; omega)
        hstep (by omega) (by omega) (by omega)
    have hall : Leads inner k (back + 1) _ :=
      hupto.append
        (by simp only [List.length_append, List.length_singleton, hlinit, hltest, hlbody, hlstep]; omega)
        (hback.append rfl hclose (m := back + 1) (by omega) (by omega) (by omega))
        (by omega) (by omega) (by omega)
    simp only [List.map_append, List.map_cons, List.map_nil]
    apply hall.close
    · intro t ht
      rw [hinner]
      exact Or.inl ht
    · intro t ht
      rw [hinner] at ht
      exact ht.imp_right fun h => by omega
    · omega
  | func a ih =>
    obtain ⟨hsa, hended⟩ := Bool.and_eq_true_iff.mp hsound
    have ha := ih none label (k + 1) (fun _ => False) hsa (fun _ h => absurd h.symm (Option.some_ne_none _)) (fun _ h => h.elim)
    have hlen := length_map_write a none label (k + 1)
    rw [Option.map_none] at hlen
    rw [stop, if_pos hended, Option.map_none, Nat.add_zero, ← hlen] at ha
    rw [write, List.map_cons, ← hlen]
    apply ha.func
    · intro t ht
      have := hout t ht
      rw [width] at this
      omega
    · rw [hlen, show (func a).stop (around.map Around.scopes) k = k + (1 + a.width none) + 1 from rfl]
      omega
  | exit again =>
    cases around with
    | none => exact Leads.plain (by cases again <;> simp [write])
    | some l =>
      have hscopes : Leads out k k (List.replicate l.scopes (.bare .scopeExit)) :=
        Leads.plain fun ins hins => by
          rw [List.eq_of_mem_replicate hins]
          rfl
      have hjump : Leads out (k + l.scopes) (k + l.scopes)
          [leap .jump (k + l.scopes) (if again then l.again else l.leave)] := by
        apply Leads.jump (by decide)
        cases again with
        | false => exact (haround l rfl).1
        | true => exact (haround l rfl).2
      have h := hscopes.append (m := (exit again).stop (some l.scopes) k) (by rw [List.length_replicate])
        hjump (by omega) (by simp only [stop, width]; omega)
        (by simp only [stop, width, Option.getD_some]; omega)
      simpa [write] using h

end Plan
end ScriptEngine
