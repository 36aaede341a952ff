import ScriptEngine.Proofs.Compiler.Fragment
import ScriptEngine.Proofs.Program.Layout

/-!
# Fragments that fit layouts

A fragment takes a layout to another if there are layouts for all its positions that its
instructions agree with. One lemma for each way of putting fragments together: behind each other,
under a condition, as alternatives, around a function's body and as a loop.
-/

namespace ScriptEngine
namespace Fragment

/-- The fragment, standing at position `k` of code of length `m`, agrees with the layouts. Waiting
exits stand where the layout is that of the loop around, every node gains one value, and no operands lie
below a loop that keeps names for itself. -/
structure FitsAt (f : Fragment) (ty : Nat → Layout) (m k : Nat) (x : Option Layout) : Prop where
  flows : ∀ (i : Nat) ins, f.code[i]? = some ins → (∀ e ∈ f.exits, e.index ≠ i) →
    ins.Fits ty m (k + i)
  exits : ∀ e ∈ f.exits, e.index < f.length ∧ x = some (ty (k + e.index))
  nodes : ∀ e ∈ f.debug, ∃ i j : Nat, i < j ∧ j ≤ f.length ∧ e.stop = j ∧ e.length = j - i ∧
    (Compiler.ofLoop e.kind = true → (ty (k + i)).slots = []) ∧ (ty (k + i)).Gains (ty (k + j))

/-- The fragment leads from layout `a` to layout `b`. -/
def Takes (f : Fragment) (a b : Layout) (x : Option Layout) : Prop :=
  ∃ ty, ty 0 = a ∧ ty f.length = b ∧ f.FitsAt ty f.length 0 x

/-- An operation that fits layouts leads to a position that has one. -/
theorem reach_within {ty : Nat → Layout} {op : Op} {a : Layout} {o : Onward} {n i : Nat} (hi : i < n)
    (h : op.Flow a o) (hlands : o.Lands ty n i) :
    ∃ t : Nat, (t : Int) = i + 1 + op.reach ∧ t ≤ n := by
  have hat : ∀ {d b}, Onward.At ty n i d b → ∃ t : Nat, (t : Int) = i + 1 + d ∧ t ≤ n :=
    fun ⟨t, ht, hle, _⟩ => ⟨t, ht, hle⟩
  cases h with
  | buildFunc => exact hat hlands.2
  | jump => exact hat hlands
  | jumpPeek => exact hat hlands.2
  | jumpIfFalse => exact hat hlands.2
  | _ => exact ⟨i + 1, by simp [Op.reach], hi⟩

namespace FitsAt

variable {f g : Fragment} {ty ty' : Nat → Layout} {m k : Nat} {x : Option Layout}

/-- A fragment keeps fitting where it becomes a part of other code. -/
theorem embed (h : f.FitsAt ty' f.length 0 x) (hty : ∀ j ≤ f.length, ty (k + j) = ty' j)
    (hm : k + f.length ≤ m) : f.FitsAt ty m k x where
  flows i ins hi hexit := by
    have hfits := h.flows i ins hi hexit
    rw [Nat.zero_add] at hfits
    exact hfits.shift (List.getElem?_eq_some_iff.mp hi).1 hty hm
  exits e he := by
    obtain ⟨hlt, hx⟩ := h.exits e he
    rw [Nat.zero_add] at hx
    rw [hty e.index (Nat.le_of_lt hlt)]
    exact ⟨hlt, hx⟩
  nodes e he := by
    obtain ⟨i, j, hij, hj, hstop, hlen, hbare, hgains⟩ := h.nodes e he
    rw [Nat.zero_add] at hbare
    rw [Nat.zero_add, Nat.zero_add] at hgains
    refine ⟨i, j, hij, hj, hstop, hlen, ?_⟩
    rw [hty i (by omega), hty j hj]
    exact ⟨hbare, hgains⟩

theorem append (hf : f.FitsAt ty m k x) (hg : g.FitsAt ty m (k + f.length) x) :
    (f ++ g).FitsAt ty m k x where
  flows i ins hi hexit := by
    rw [code_append] at hi
    by_cases hlt : i < f.length
    · rw [List.getElem?_append_left hlt] at hi
      exact hf.flows i ins hi fun e he => hexit e (List.mem_append_left _ he)
    · rw [List.getElem?_append_right (Nat.le_of_not_lt hlt)] at hi
      have hfits := hg.flows (i - f.length) ins hi (by
        intro e he heq
        refine hexit ⟨e.index + f.length, e.again⟩ ?_ (by show e.index + f.length = i; omega)
        exact List.mem_append_right _ (List.mem_map.mpr ⟨e, he, rfl⟩))
      have hpos : k + f.length + (i - f.length) = k + i := by omega
      rw [hpos] at hfits
      exact hfits
  exits e he := by
    rw [exits_append] at he
    rw [length_append]
    rcases List.mem_append.mp he with he | he
    · obtain ⟨hlt, hx⟩ := hf.exits e he
      exact ⟨by omega, hx⟩
    · obtain ⟨e', he', rfl⟩ := List.mem_map.mp he
      obtain ⟨hlt, hx⟩ := hg.exits e' he'
      refine ⟨by show e'.index + f.length < _; omega, ?_⟩
      have hpos : k + (e'.index + f.length) = k + f.length + e'.index := by omega
      show x = some (ty (k + (e'.index + f.length)))
      rw [hpos]
      exact hx
  nodes e he := by
    rw [debug_append] at he
    rw [length_append]
    rcases List.mem_append.mp he with he | he
    · obtain ⟨i, j, hij, hj, hstop, hlen, hbare, hgains⟩ := hf.nodes e he
      exact ⟨i, j, hij, by omega, hstop, hlen, hbare, hgains⟩
    · obtain ⟨e', he', rfl⟩ := List.mem_map.mp he
      obtain ⟨i, j, hij, hj, hstop, hlen, hbare, hgains⟩ := hg.nodes e' he'
      refine ⟨f.length + i, f.length + j, by omega, by omega, ?_, ?_, ?_⟩
      · show e'.stop + (f.length : Int) = _
        rw [hstop]
        omega
      · show e'.length = _
        rw [hlen]
        omega
      · rw [← Nat.add_assoc, ← Nat.add_assoc]
        exact ⟨hbare, hgains⟩

theorem empty : Fragment.empty.FitsAt ty m k x where
  flows _ _ hi _ := by simp [Fragment.empty] at hi
  exits _ he := absurd he List.not_mem_nil
  nodes _ he := absurd he List.not_mem_nil

/-- A single instruction. -/
theorem one {ins : Instruction} (h : ins.Fits ty m k) : (ofCode [ins]).FitsAt ty m k x where
  flows i ins' hi _ := by
    cases i with
    | zero =>
      have heq : ins = ins' := by simpa [ofCode] using hi
      rw [← heq]
      exact h
    | succ i => simp [ofCode] at hi
  exits _ he := absurd he List.not_mem_nil
  nodes _ he := absurd he List.not_mem_nil

/-- Without a loop around there are no exits, so any loop may stand around. -/
theorem inAnyLoop (h : f.FitsAt ty m k none) : f.FitsAt ty m k x where
  flows := h.flows
  exits e he := absurd (h.exits e he).2 (by simp)
  nodes := h.nodes

theorem mark (h : f.FitsAt ty m k x) (hgains : (ty k).Gains (ty (k + f.length))) {kind : String}
    (hbare : Compiler.ofLoop kind = true → (ty k).slots = []) (span : Span) :
    (f.mark kind span).FitsAt ty m k x where
  flows i ins hi hexit := by
    rw [mark_code] at hi
    rw [mark_exits] at hexit
    exact h.flows i ins hi hexit
  exits e he := by
    rw [mark_exits] at he
    rw [length_mark]
    exact h.exits e he
  nodes e he := by
    rw [length_mark]
    by_cases hcode : f.code = []
    · rw [mark_of_code_nil hcode] at he
      exact h.nodes e he
    · rw [mark_debug hcode] at he
      rcases List.mem_append.mp he with he | he
      · exact h.nodes e he
      · rw [List.mem_singleton.mp he]
        have hpos : 0 < f.length := List.length_pos_iff.mpr hcode
        refine ⟨0, f.length, hpos, Nat.le_refl _, rfl, ?_, ?_⟩
        · show (f.length : Int) = f.length - ((0 : Nat) : Int)
          omega
        · rw [Nat.add_zero]
          exact ⟨hbare, hgains⟩

/-- Exits become jumps to two places with the layout of the loop. -/
theorem resolve {y : Layout} {leave again : Nat} (h : f.FitsAt ty m k (some y))
    (hleave : ty (k + leave) = y) (hagain : ty (k + again) = y) (hl : k + leave ≤ m)
    (ha : k + again ≤ m) : (f.resolve leave again).FitsAt ty m k x where
  flows i ins hi _ := by
    rw [resolve_code] at hi
    rcases getElem?_patched hi with ⟨hcode, hexit⟩ | ⟨e, he, heq, hins⟩
    · exact h.flows i ins hcode hexit
    · have hy : ty (k + i) = y := by
        have hx := (h.exits e he).2
        rw [heq] at hx
        exact (Option.some.inj hx).symm
      have htarget : ty (k + if e.again then again else leave) = y ∧
          k + (if e.again then again else leave) ≤ m := by
        cases e.again
        · exact ⟨hleave, hl⟩
        · exact ⟨hagain, ha⟩
      rw [hins]
      refine (Instruction.stands_jump _).fits rfl .jump ?_
      refine ⟨k + if e.again then again else leave, by omega, htarget.2, ?_⟩
      rw [hy]
      exact htarget.1
  exits _ he := absurd he List.not_mem_nil
  nodes e he := by
    rw [length_resolve]
    exact h.nodes e he

end FitsAt

namespace Takes

variable {f g : Fragment} {a b c : Layout} {x : Option Layout}

theorem empty : Fragment.empty.Takes a a x :=
  ⟨fun _ => a, rfl, rfl, .empty⟩

theorem append (hf : f.Takes a b x) (hg : g.Takes b c x) : (f ++ g).Takes a c x := by
  obtain ⟨ty, hfa, hfb, hfits⟩ := hf
  obtain ⟨ty', hgb, hgc, hgits⟩ := hg
  have hseam : ty f.length = ty' 0 := by rw [hfb, hgb]
  refine ⟨glue f.length ty ty', ?_, ?_, ?_⟩
  · rw [glue_left hseam (Nat.zero_le _), hfa]
  · rw [length_append, glue_right, hgc]
  · rw [length_append]
    refine FitsAt.append (hfits.embed ?_ (by omega)) (hgits.embed ?_ (by omega))
    · intro j hj
      rw [Nat.zero_add]
      exact glue_left hseam hj
    · intro j hj
      rw [Nat.zero_add]
      exact glue_right f.length ty ty' j

/-- An instruction that goes on to the next one. -/
theorem one {ins : Instruction} {op : Op} (hins : ins.Stands op) (hflow : op.Flow a (.next b)) :
    (ofCode [ins]).Takes a b x :=
  ⟨fun i => if i = 0 then a else b, rfl, rfl, .one (hins.fits rfl hflow rfl)⟩

/-- An instruction that does not go on, so that anything may stand behind it. -/
theorem halt {ins : Instruction} {op : Op} (hins : ins.Stands op) (hflow : op.Flow a .stop) :
    (ofCode [ins]).Takes a b x :=
  ⟨fun i => if i = 0 then a else b, rfl, rfl, .one (hins.fits rfl hflow trivial)⟩

/-- An instruction where control never gets. -/
theorem dead {ins : Instruction} {op : Op} (hins : ins.Stands op) (hop : op.reach = 0)
    (ha : a.live = false) : (ofCode [ins]).Takes a b x :=
  ⟨fun i => if i = 0 then a else b, rfl, rfl, .one ⟨op, hins, Or.inl ⟨ha, hop⟩⟩⟩

theorem inAnyLoop (h : f.Takes a b none) : f.Takes a b x := by
  obtain ⟨ty, ha, hb, hfits⟩ := h
  exact ⟨ty, ha, hb, hfits.inAnyLoop⟩

theorem mark (h : f.Takes a b x) (hgains : a.Gains b) {kind : String}
    (hbare : Compiler.ofLoop kind = true → a.slots = []) (span : Span) : (f.mark kind span).Takes a b x := by
  obtain ⟨ty, ha, hb, hfits⟩ := h
  refine ⟨ty, ha, ?_, ?_⟩
  · rw [length_mark, hb]
  · rw [length_mark]
    refine hfits.mark ?_ (ha ▸ hbare) span
    rw [Nat.zero_add, ha, hb]
    exact hgains

/-- What pushes something is not empty. -/
theorem length_pos {s : Slot} (h : f.Takes a (a.push s) x) : 0 < f.length := by
  obtain ⟨ty, ha, hb, _⟩ := h
  rcases Nat.eq_zero_or_pos f.length with hzero | hpos
  · rw [hzero, ha] at hb
    exact absurd hb.symm (Layout.push_ne a s)
  · exact hpos

/-- A condition that skips a part. -/
theorem skip {ins : Instruction} {op : Op} {d : Int} (hins : ins.Stands op)
    (hflow : op.Flow a (.either b d c)) (hg : g.Takes b c x) (hd : d = g.length) :
    (ofCode [ins] ++ g).Takes a c x := by
  obtain ⟨ty, hgb, hgc, hfits⟩ := hg
  have hlen : (ofCode [ins] ++ g).length = 1 + g.length := length_append _ _
  refine ⟨glue 1 (fun _ => a) ty, rfl, ?_, ?_⟩
  · rw [hlen, glue_right, hgc]
  · rw [hlen]
    refine FitsAt.append (.one (hins.fits rfl hflow ⟨?_, ?_⟩))
      (hfits.embed ?_ (Nat.le_refl _))
    · exact (glue_right 1 _ ty 0).trans hgb
    · refine ⟨1 + g.length, by omega, Nat.le_refl _, ?_⟩
      rw [glue_right, hgc]
    · intro j _
      exact glue_right 1 _ ty j

/-- A condition that chooses between two parts. -/
theorem choose {ins ins' : Instruction} {op : Op} {d : Int} {b' : Layout} (hins : ins.Stands op)
    (hflow : op.Flow a (.either b d b')) (hf : f.Takes b c x) (hg : g.Takes b' c x)
    (hd : d = f.length + 1) (hins' : ins' = .withDistance .jump g.length) :
    (ofCode [ins] ++ f ++ ofCode [ins'] ++ g).Takes a c x := by
  obtain ⟨ty, hfb, hfc, hfits⟩ := hf
  obtain ⟨ty', hgb, hgc, hgits⟩ := hg
  have hlen : (ofCode [ins] ++ f ++ ofCode [ins'] ++ g).length =
      1 + (f.length + (1 + g.length)) := by
    simp only [length_append, length_ofCode, List.length_singleton]
    omega
  refine ⟨glue 1 (fun _ => a) (glue f.length ty (glue 1 (fun _ => c) ty')), rfl, ?_, ?_⟩
  · rw [hlen, glue_right, glue_right, glue_right, hgc]
  · have hty : ∀ j ≤ f.length,
        glue 1 (fun _ => a) (glue f.length ty (glue 1 (fun _ => c) ty')) (1 + j) = ty j := by
      intro j hj
      rw [glue_right]
      exact glue_left hfc hj
    have hty' : ∀ j,
        glue 1 (fun _ => a) (glue f.length ty (glue 1 (fun _ => c) ty')) (1 + f.length + 1 + j) =
          ty' j := by
      intro j
      rw [show 1 + f.length + 1 + j = 1 + (f.length + (1 + j)) by omega]
      rw [glue_right, glue_right, glue_right]
    rw [hlen, append_assoc, append_assoc]
    refine FitsAt.append (.one (hins.fits rfl hflow ⟨?_, ?_⟩))
      (FitsAt.append (hfits.embed hty ?_) (FitsAt.append (.one ?_) (hgits.embed ?_ ?_)))
    · exact (hty 0 (Nat.zero_le _)).trans hfb
    · exact ⟨1 + f.length + 1 + 0, by omega, by omega, (hty' 0).trans hgb⟩
    · simp only [length_ofCode, List.length_singleton]
      omega
    · rw [hins']
      refine (Instruction.stands_jump _).fits ((hty f.length (Nat.le_refl _)).trans hfc) .jump ?_
      refine ⟨1 + f.length + 1 + g.length, ?_, by omega, (hty' g.length).trans hgc⟩
      simp only [Nat.zero_add, length_ofCode, List.length_singleton]
      omega
    · intro j _
      simp only [Nat.zero_add, length_ofCode, List.length_singleton]
      exact hty' j
    · simp only [length_ofCode, List.length_singleton]
      omega

/-- Instructions behind a fragment. -/
theorem emit {code : List Instruction} (hf : f.Takes a b x) (hcode : (ofCode code).Takes b c x) :
    (f.emit code).Takes a c x := by
  rw [emit_eq]
  exact hf.append hcode

theorem nil : (ofCode []).Takes a a x :=
  empty

theorem cons {ins : Instruction} {op : Op} {code : List Instruction} (hins : ins.Stands op)
    (hflow : op.Flow a (.next b)) (hcode : (ofCode code).Takes b c x) :
    (ofCode (ins :: code)).Takes a c x := by
  rw [ofCode_cons]
  exact (one hins hflow).append hcode

/-- The instruction that builds a closure, and the body it skips. -/
theorem build {ins : Instruction} {op : Op} {d : Int} (hins : ins.Stands op)
    (hflow : op.Flow a (.build d c)) (hg : g.Takes .entry c none) (hd : d = g.length) :
    (ofCode [ins] ++ g).Takes a c x := by
  obtain ⟨ty, hgb, hgc, hfits⟩ := hg
  have hlen : (ofCode [ins] ++ g).length = 1 + g.length := length_append _ _
  refine ⟨glue 1 (fun _ => a) ty, rfl, ?_, ?_⟩
  · rw [hlen, glue_right, hgc]
  · rw [hlen]
    refine FitsAt.append (.one (hins.fits rfl hflow ⟨?_, ?_⟩))
      (hfits.inAnyLoop.embed ?_ (Nat.le_refl _))
    · exact (glue_right 1 _ ty 0).trans hgb
    · refine ⟨1 + g.length, by omega, Nat.le_refl _, ?_⟩
      rw [glue_right, hgc]
    · intro j _
      exact glue_right 1 _ ty j

/-- A loop exit closes the scopes inside the loop; behind it anything may stand. -/
theorem exit {again : Bool} {n : Nat} (hn : n ≤ a.scopes) :
    (Fragment.exit again (some n)).Takes a b (some { a with scopes := a.scopes - n }) := by
  obtain ⟨ty, hty⟩ : ∃ ty : Nat → Layout,
      ty = fun i => if i ≤ n then { a with scopes := a.scopes - i } else b := ⟨_, rfl⟩
  have hat : ∀ i ≤ n, ty i = { a with scopes := a.scopes - i } := by
    intro i hi
    rw [hty]
    exact if_pos hi
  have hlen : (Fragment.exit again (some n)).length = n + 1 := by
    simp [Fragment.exit, Fragment.length]
  refine ⟨ty, hat 0 (Nat.zero_le _), ?_, ?_, ?_, ?_⟩
  · rw [hlen, hty]
    exact if_neg (by omega)
  · intro i ins hi hexit
    have hne : n ≠ i := hexit ⟨n, again⟩ (List.mem_singleton.mpr rfl)
    have hlt : i < n := by
      have hbound := (List.getElem?_eq_some_iff.mp hi).1
      have hlen : (Fragment.exit again (some n)).code.length = n + 1 := hlen
      omega
    have hins : ins = .bare .scopeExit := by
      have hcode : (Fragment.exit again (some n)).code =
        List.replicate n (Instruction.bare .scopeExit) ++ [Instruction.bare (if again then .again else .leave)] := rfl
      rw [hcode, List.getElem?_append_left (by simpa using hlt), List.getElem?_replicate,
        if_pos hlt] at hi
      exact (Option.some.inj hi).symm
    have hopen : ({ a with scopes := a.scopes - i } : Layout) =
        Layout.enter { a with scopes := a.scopes - (i + 1) } := by
      show _ = { a with scopes := a.scopes - (i + 1) + 1 }
      rw [show a.scopes - (i + 1) + 1 = a.scopes - i by omega]
    have hstands : ins.Stands .scopeExit := by
      rw [hins]
      exact Instruction.stands_bare rfl
    rw [Nat.zero_add]
    exact hstands.fits ((hat i (by omega)).trans hopen) .scopeExit (hat (i + 1) hlt)
  · intro e he
    rw [List.mem_singleton.mp he]
    refine ⟨by rw [hlen]; exact Nat.lt_succ_self n, ?_⟩
    rw [Nat.zero_add, hat n (Nat.le_refl _)]
  · intro e he
    exact absurd he List.not_mem_nil

end Takes

/-!
# Loops

The test of a loop leads to its body, or behind the jump that closes the round. The layout in front
of every round, of the step and of the end is the one inside the loop's scope.
-/

/-- The fragment in front of a loop's body either goes on or skips `rest` instructions. -/
def Tests (f : Fragment) (u : Layout) (rest : Nat) : Prop :=
  ∃ ty' : Nat → Layout, ty' 0 = u ∧ ty' f.length = u ∧
    ∀ (ty : Nat → Layout) (m k : Nat) (x : Option Layout), (∀ j ≤ f.length, ty (k + j) = ty' j) →
      ty (k + f.length + rest) = u → k + f.length + rest ≤ m → f.FitsAt ty m k x

theorem Tests.empty {u : Layout} {rest : Nat} : Fragment.empty.Tests u rest :=
  ⟨fun _ => u, rfl, rfl, fun _ _ _ _ _ _ _ => .empty⟩

theorem Tests.condition {c : Fragment} {u : Layout} {rest : Nat}
    (hc : c.Takes u (u.push .value) none) :
    (c.emit [.withDistance .jumpIfFalse rest]).Tests u rest := by
  obtain ⟨ty', hstart, hstop, hfits⟩ := hc
  have hseam : ty' c.length = (fun i => if i = 0 then u.push .value else u) 0 := hstop
  rw [emit_eq]
  refine ⟨glue c.length ty' fun i => if i = 0 then u.push .value else u, ?_, ?_, ?_⟩
  · rw [glue_left hseam (Nat.zero_le _), hstart]
  · rw [length_append, glue_right]
    rfl
  · intro ty m k x hty hskip hm
    rw [length_append, length_ofCode, List.length_singleton] at hty hskip hm
    have hjump : ty (k + c.length) = u.push .value := by
      rw [hty c.length (by omega), glue_left hseam (Nat.le_refl _), hstop]
    have hnext : ty (k + c.length + 1) = u := by
      rw [Nat.add_assoc, hty (c.length + 1) (Nat.le_refl _), glue_right]
      rfl
    refine FitsAt.append (hfits.inAnyLoop.embed ?_ (by omega)) (.one ?_)
    · intro j hj
      rw [hty j (by omega), glue_left hseam hj]
    · exact (Instruction.stands_jumpIfFalse _).fits hjump .jumpIfFalse
        ⟨hnext, k + (c.length + 1) + rest, by omega, hm, hskip⟩

/-- The condition of a loop: code that passes over `rest` instructions if it does not hold. -/
def loopTest (cond : Option Fragment) (rest : Nat) : Fragment :=
  match cond with
  | none => Fragment.empty
  | some c => c.emit [.withDistance .jumpIfFalse rest]

theorem Takes.loop {init body step : Fragment} {cond : Option Fragment} {a : Layout}
    {x : Option Layout} (hinit : init.Takes a.enter a.enter x)
    (hcond : ∀ c, cond = some c → c.Takes a.enter (a.enter.push .value) none)
    (hbody : body.Takes a.enter a.enter (some a.enter)) (hstep : step.Takes a.enter a.enter x) :
    (Fragment.loop init cond body step).Takes a (a.push .value) x := by
  obtain ⟨rest, hrest⟩ : ∃ rest, rest = body.length + step.length + 1 := ⟨_, rfl⟩
  obtain ⟨test, htest⟩ : ∃ test, test = loopTest cond rest := ⟨_, rfl⟩
  have htests : test.Tests a.enter rest := by
    cases cond with
    | none =>
      rw [htest]
      exact .empty
    | some c =>
      rw [htest]
      exact .condition (hcond c rfl)
  have hloop : Fragment.loop init cond body step =
      ofCode [.bare .scopeEnter] ++ (init ++ (test ++ (body.resolve rest body.length ++ (step ++
        (ofCode [.withDistance .jump
          (-((test ++ body.resolve rest body.length ++ step).length + 1 : Int))] ++
            (ofCode [.bare .scopeExit] ++ ofCode [.bare .pushNull])))))) := by
    rw [htest, hrest]
    show (ofCode [.bare .scopeEnter] ++ init ++ (loopTest cond (body.length + step.length + 1) ++
      body.resolve (body.length + step.length + 1) body.length ++ step)).emit
        [.withDistance .jump (-((loopTest cond (body.length + step.length + 1) ++
          body.resolve (body.length + step.length + 1) body.length ++ step).length + 1 : Int)),
          .bare .scopeExit, .bare .pushNull] = _
    simp only [emit_eq, append_assoc]
    rfl
  have hround : (test ++ body.resolve rest body.length ++ step).length =
      test.length + body.length + step.length := by
    simp only [length_append, length_resolve]
  obtain ⟨back, hback⟩ : ∃ back : Int,
      back = -((test.length + body.length + step.length : Nat) + 1) := ⟨_, rfl⟩
  rw [hround, ← hback] at hloop
  obtain ⟨tyI, hI, hI', hinits⟩ := hinit
  obtain ⟨tyT, hT, hT', htests⟩ := htests
  obtain ⟨tyB, hB, hB', hbodies⟩ := hbody
  obtain ⟨tyS, hS, hS', hsteps⟩ := hstep
  -- behind the rounds: the jump back, the end of the scope, and the null that the loop leaves
  obtain ⟨ends, hends⟩ : ∃ ends : Nat → Layout, ends 0 = a.enter ∧ ends 1 = a.enter ∧ ends 2 = a ∧
      ends 3 = a.push .value :=
    ⟨fun i => if i ≤ 1 then a.enter else if i = 2 then a else a.push .value, rfl, rfl, rfl, rfl⟩
  obtain ⟨hE0, hE1, hE2, hE3⟩ := hends
  obtain ⟨ty, hty⟩ : ∃ ty, ty = glue 1 (fun _ => a) (glue init.length tyI (glue test.length tyT
      (glue body.length tyB (glue step.length tyS ends)))) := ⟨_, rfl⟩
  have seamS : tyS step.length = ends 0 := by rw [hS', hE0]
  have seamB : tyB body.length = glue step.length tyS ends 0 := by
    rw [hB', glue_left seamS (Nat.zero_le _), hS]
  have seamT : tyT test.length = glue body.length tyB (glue step.length tyS ends) 0 := by
    rw [hT', glue_left seamB (Nat.zero_le _), hB]
  have seamI : tyI init.length =
      glue test.length tyT (glue body.length tyB (glue step.length tyS ends)) 0 := by
    rw [hI', glue_left seamT (Nat.zero_le _), hT]
  have atI : ∀ j ≤ init.length, ty (1 + j) = tyI j := by
    intro j hj
    rw [hty, glue_right, glue_left seamI hj]
  have atT : ∀ j ≤ test.length, ty (1 + init.length + j) = tyT j := by
    intro j hj
    rw [hty, Nat.add_assoc, glue_right, glue_right, glue_left seamT hj]
  have atB : ∀ j ≤ body.length, ty (1 + init.length + test.length + j) = tyB j := by
    intro j hj
    rw [hty, show 1 + init.length + test.length + j =
      1 + (init.length + (test.length + j)) by omega]
    rw [glue_right, glue_right, glue_right, glue_left seamB hj]
  have atS : ∀ j ≤ step.length,
      ty (1 + init.length + test.length + body.length + j) = tyS j := by
    intro j hj
    rw [hty, show 1 + init.length + test.length + body.length + j =
      1 + (init.length + (test.length + (body.length + j))) by omega]
    rw [glue_right, glue_right, glue_right, glue_right, glue_left seamS hj]
  have atE : ∀ j, ty (1 + init.length + test.length + body.length + step.length + j) = ends j := by
    intro j
    rw [hty, show 1 + init.length + test.length + body.length + step.length + j =
      1 + (init.length + (test.length + (body.length + (step.length + j)))) by omega]
    rw [glue_right, glue_right, glue_right, glue_right, glue_right]
  have hlen : (Fragment.loop init cond body step).length =
      1 + init.length + test.length + body.length + step.length + 3 := by
    rw [hloop]
    simp only [length_append, length_resolve, length_ofCode, List.length_singleton]
    omega
  have hzero : ty 0 = a := by
    rw [hty]
    rfl
  have hone : ty 1 = a.enter := (atI 0 (Nat.zero_le _)).trans hI
  have hleave : ty (1 + init.length + test.length + rest) = a.enter := by
    rw [hrest, ← Nat.add_assoc, ← Nat.add_assoc, atE 1, hE1]
  have hagain : ty (1 + init.length + test.length + body.length) = a.enter := by
    rw [atB body.length (Nat.le_refl _), hB']
  refine ⟨ty, hzero, ?_, ?_⟩
  · rw [hlen, atE 3, hE3]
  · rw [hlen, hloop]
    refine FitsAt.append (.one ((Instruction.stands_bare rfl).fits hzero .scopeEnter hone)) ?_
    simp only [length_ofCode, List.length_singleton, Nat.zero_add]
    refine FitsAt.append (hinits.embed atI (by omega)) (FitsAt.append ?_ (FitsAt.append ?_
      (FitsAt.append (hsteps.embed ?_ ?_) (FitsAt.append (.one ?_)
        (FitsAt.append (.one ?_) (.one ?_))))))
    · exact htests ty _ _ x atT hleave (by omega)
    · exact (hbodies.embed atB (by omega)).resolve hleave hagain (by omega) (by omega)
    · rw [length_resolve]
      exact atS
    · rw [length_resolve]
      omega
    all_goals simp only [length_resolve, length_ofCode, List.length_singleton]
    · refine (Instruction.stands_jump back).fits ((atE 0).trans hE0) .jump ?_
      exact ⟨1 + init.length, by omega, by omega, (atT 0 (Nat.zero_le _)).trans hT⟩
    · exact (Instruction.stands_bare rfl).fits ((atE 1).trans hE1) .scopeExit ((atE 2).trans hE2)
    · have hnull : (Instruction.bare .pushNull).Stands (.push .null) := Instruction.stands_bare rfl
      exact hnull.fits ((atE 2).trans hE2) (.value trivial) ((atE 3).trans hE3)

end Fragment
end ScriptEngine
