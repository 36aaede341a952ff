import ScriptEngine.Proofs.Compiler.Counters

/-!
# Loops in generated code

Counted loops, and loops over a source, have their places wherever their code sits in a program: what the
compiler generates around the expression and the body of a loop is spelled out, neither of these two touches
what the loop keeps in its scope, and control leads from the body to the body, to the next round or out of
the loop.
-/

namespace ScriptEngine

/-- The instructions stand for the operations. -/
def Instruction.Spell : List Instruction → List Op → Prop :=
  List.Forall₂ fun ins op => ins.Stands op ∧ Number.fitsWord op.reach = true

namespace Fragment

open Instruction

variable {u : Usage} {f g : Fragment} {ops : Array Op} {k leave again n m i : Nat} {x : Option Layout}
  {a b : Layout} {op : Op}

/-- Fragments with the same code and the same exits sit alike. -/
theorem Sits.congr (h : f.Sits ops k leave again) (hcode : g.code = f.code) (hexits : g.exits = f.exits) :
    g.Sits ops k leave again where
  inside := by
    rw [length, hcode]
    exact h.inside
  reads := by
    rw [hcode, hexits]
    exact h.reads

theorem Sits.spelled {code : List Instruction} {l : List Op} (h : (ofCode code).Sits ops k leave again)
    (hspell : Instruction.Spell code l) : Op.Spelled ops k l := by
  intro i op hop
  have hlt : i < l.length := (List.getElem?_eq_some_iff.mp hop).1
  have hlt' : i < code.length := hspell.length_eq ▸ hlt
  obtain ⟨hins, hfits⟩ := hspell.get hlt' hlt
  rw [← (List.getElem?_eq_some_iff.mp hop).2]
  exact h.read (List.getElem?_eq_getElem hlt') hins hfits

/-- Control leads from the operations of a fragment into the fragment, to its end, or where its exits lead. -/
theorem Takes.hands (h : f.Takes a b x) (hsits : f.Sits ops k leave again) (hsize : ops.size ≤ Slot.limit)
    (hleave : leave ≤ ops.size) (hagain : again ≤ ops.size) (hi : i < f.length) (hop : ops[k + i]? = some op) :
    op.Hands ops (k + i) (fun j => k ≤ j ∧ j ≤ k + f.length ∨ j = leave ∨ j = again) fun _ => True := by
  obtain ⟨ty, -, -, hfits⟩ := h
  have hinside := hsits.inside
  obtain ⟨op', hop', hread⟩ := hsits.reads i _ (List.getElem?_eq_getElem hi)
  obtain rfl : op' = op := Option.some.inj (hop'.symm.trans hop)
  rcases hread with ⟨hexit, hread⟩ | ⟨e, -, -, d, rfl, hd⟩
  · -- the operation leads to where a layout of the fragment stands
    obtain ⟨t, ht, hle, hfit⟩ : ∃ t : Nat, (t : Int) = i + 1 + op'.reach ∧ t ≤ f.length ∧
        Number.fitsWord op'.reach = true := by
      obtain ⟨op₁, hstands, hflow⟩ := hfits.flows i _ (List.getElem?_eq_getElem hi) hexit
      obtain ⟨t, ht, hle⟩ : ∃ t : Nat, (t : Int) = i + 1 + op₁.reach ∧ t ≤ f.length := by
        rcases hflow with ⟨-, hreach⟩ | ⟨o, hflow, hlands⟩
        · exact ⟨i + 1, by rw [hreach]; omega, hi⟩
        · rw [Nat.zero_add] at hlands
          exact reach_within hi hflow hlands
      have hword : Number.fitsWord op₁.reach = true := Op.fitsWord_of_natAbs (by omega)
      rw [hread.eq_of_stands hstands hword]
      exact ⟨t, ht, hle, hword⟩
    refine Op.Hands.of_reach (t := k + t) (by omega) (by omega) (Or.inl ⟨by omega, by omega⟩)
      (Or.inl ⟨by omega, by omega⟩) trivial
  · refine ⟨_, hd, ?_⟩
    split
    · exact ⟨hagain, Or.inr (Or.inr rfl)⟩
    · exact ⟨hleave, Or.inr (Or.inl rfl)⟩

/-!
# Entries of parts
-/

/-- The fragment has an entry for `n` instructions from `k` on. -/
def Records (f : Fragment) (k n : Nat) : Prop :=
  ∃ e ∈ f.debug, e.stop = (k + n : Nat) ∧ e.length = n

theorem records_mark (h : f.code ≠ []) (kind : String) (span : Span) : (f.mark kind span).Records 0 f.length := by
  refine ⟨⟨f.length, f.length, span, kind⟩, ?_, ?_, rfl⟩
  · rw [mark_debug h]
    exact List.mem_append_right _ List.mem_cons_self
  · rw [Nat.zero_add]

theorem Records.mark (h : f.Records k n) (kind : String) (span : Span) : (f.mark kind span).Records k n := by
  by_cases hcode : f.code = []
  · rw [mark_of_code_nil hcode]
    exact h
  obtain ⟨e, he, hentry⟩ := h
  refine ⟨e, ?_, hentry⟩
  rw [mark_debug hcode]
  exact List.mem_append_left _ he

theorem Records.emit (h : f.Records k n) (code : List Instruction) : (f.emit code).Records k n :=
  h

theorem Records.left (h : f.Records k n) (g : Fragment) : (f ++ g).Records k n := by
  obtain ⟨e, he, hentry⟩ := h
  exact ⟨e, List.mem_append_left _ he, hentry⟩

theorem Records.right (h : g.Records k n) (f : Fragment) : (f ++ g).Records (f.length + k) n := by
  obtain ⟨e, he, hstop, hlength⟩ := h
  refine ⟨e.shift f.length, List.mem_append_right _ (List.mem_map_of_mem he), ?_, hlength⟩
  show e.stop + f.length = _
  omega

/-!
# What loops enclose
-/

/-- Nothing is asked where the rest begins. -/
theorem secure_end {stop : Nat → Prop} {l : List (List Text)} (h : stop i) : Op.Secure u ops stop i (.still l)
  | 0 => trivial
  | _ + 1 => Or.inl h

/-- The body of a loop is secure up to the next round and the end of the loop. -/
theorem Steady.secure_body {stop past : Nat} (h : f.Steady u [] (some (.still []))) (hsize : ops.size ≤ Slot.limit)
    (hsits : f.Sits ops k leave again) (hleave : leave ≤ ops.size) (hagain : again ≤ ops.size)
    (hnext : again = stop ∧ k + f.length = stop) (hpast : leave = past) :
    Op.Secure u ops (fun i => i = stop ∨ i = past) k (.still []) := by
  intro n
  refine h.safe hsize hsits n (secure_end (Or.inl hnext.2) n) fun y hy => ?_
  cases hy
  exact ⟨⟨hleave, secure_end (Or.inr hpast) n⟩, hagain, secure_end (Or.inl hnext.1) n⟩

/-!
# Counted loops
-/

/-- The instructions that keep the number of rounds, and begin to count them. -/
def counting : List Instruction :=
  Fragment.bindTop Compiler.hiddenCount .inner ++ [.bare .pop, .count 0] ++
    Fragment.bindTop Compiler.hiddenIndex .inner ++ [.bare .pop]

/-- The instructions that compare the rounds with their number. -/
def comparing : List Instruction :=
  [.withText .getVar Compiler.hiddenIndex, .withText .getVar Compiler.hiddenCount, .count 2,
    .withText .dispatch "<"]

/-- A counted loop, without its entry in the debug table. -/
def rounds (f g : Fragment) : Fragment :=
  Fragment.loop (f.emit counting) (some (ofCode comparing)) g
    (ofCode [.withText .increment Compiler.hiddenIndex])

theorem repeatLoop_eq (span : Span) : Compiler.repeatLoop span f g = (rounds f g).mark "Loop" span :=
  rfl

/-- The places of a counted loop whose code begins at position `k`. -/
def roundsSite (f g : Fragment) (k : Nat) : LoopSite :=
  ⟨k, k + (1 + f.length), k + (1 + f.length + 14 + g.length)⟩

/-- The instructions between the expression that counts and the test of a round. -/
theorem spell_opening : Spell (counting ++ comparing) LoopSite.opening :=
  .cons ⟨stands_bare rfl, rfl⟩ <| .cons ⟨stands_string _, rfl⟩ <| .cons ⟨stands_bare rfl, rfl⟩ <|
  .cons ⟨stands_bare rfl, rfl⟩ <| .cons ⟨stands_count 0, rfl⟩ <| .cons ⟨stands_bare rfl, rfl⟩ <|
  .cons ⟨stands_string _, rfl⟩ <| .cons ⟨stands_bare rfl, rfl⟩ <| .cons ⟨stands_bare rfl, rfl⟩ <|
  .cons ⟨stands_getVar _, rfl⟩ <| .cons ⟨stands_getVar _, rfl⟩ <| .cons ⟨stands_count 2, rfl⟩ <|
  .cons ⟨stands_dispatch _, rfl⟩ .nil

theorem rounds_eq (f g : Fragment) : rounds f g =
    ofCode [.bare .scopeEnter] ++ (f ++ (ofCode (counting ++ comparing) ++
      (ofCode [.withDistance .jumpIfFalse (g.length + 2 : Nat)] ++
        (g.resolve (g.length + 2) g.length ++ (ofCode [.withText .increment Compiler.hiddenIndex] ++
          (ofCode [.withDistance .jump (-((g.length + 6 : Nat) + 1 : Int))] ++
            ofCode [.bare .scopeExit, .bare .pushNull])))))) := by
  have htest : loopTest (some (ofCode comparing)) (g.length + 2) =
      ofCode comparing ++ ofCode [.withDistance .jumpIfFalse (g.length + 2 : Nat)] := emit_eq _ _
  have hopening : ofCode (counting ++ comparing) = ofCode counting ++ ofCode comparing :=
    emit_eq (ofCode counting) comparing
  have hlength : 5 + g.length + 1 = g.length + 6 := by omega
  unfold rounds
  rw [loop_eq, emit_eq, append_assoc]
  show _ ++ (f ++ (ofCode counting ++ (loopTest (some (ofCode comparing)) (g.length + 2) ++
    (g.resolve (g.length + 2) g.length ++ (_ ++
      (ofCode [.withDistance .jump (-((5 + g.length + 1 : Nat) + 1 : Int))] ++ _)))))) = _
  rw [htest, append_assoc, hlength, hopening, append_assoc]

/-- A counted loop has its places wherever it sits. -/
theorem loopAt_rounds (hf : f.Steady u [] none) (hg : g.Steady u [] (some (.still [])))
    (hscope : ∃ h, g = Fragment.inScope h) : (rounds f g).LoopAt u "Loop" := by
  intro ops k leave again hsize hsits
  have hlength : (rounds f g).length = 1 + f.length + 14 + g.length + 4 := by
    rw [rounds_eq]
    simp only [length_append, length_ofCode, length_resolve, List.length_singleton]
    show _ + (_ + (13 + (_ + (_ + (_ + (_ + 2)))))) = 1 + f.length + 14 + g.length + 4
    omega
  refine ⟨fun _ => ⟨roundsSite f g k, rfl, by rw [hlength]; rfl, ?_⟩, fun h => absurd h (by decide)⟩
  rw [rounds_eq] at hsits
  have hlength : (counting ++ comparing).length = 13 := rfl
  have hinside := hsits.inside
  have hcode := hsits.right (x := none) (closed_ofCode _)
  have hinit := hcode.right hf.exits
  have htest := hinit.right (x := none) (closed_ofCode _)
  have hround := htest.right (x := none) (closed_ofCode _)
  have hstep := hround.right (x := none) (closed_of_exits rfl)
  have hback := hstep.right (x := none) (closed_ofCode _)
  have hlast := hback.right (x := none) (closed_ofCode _)
  simp only [length_append, length_ofCode, length_resolve, List.length_cons, List.length_nil, hlength]
    at hinside hcode hinit htest hround hstep hback hlast
  have hreach : ∀ {d : Int}, d.natAbs ≤ ops.size → Number.fitsWord d = true := fun hd =>
    Op.fitsWord_of_natAbs (by omega)
  have hskip : ((g.length + 2 : Nat) : Int).natAbs ≤ ops.size := by omega
  have hturn : (-((g.length + 6 : Nat) + 1 : Int)).natAbs ≤ ops.size := by omega
  have hat : ∀ {i j : Nat} {op op' : Op}, ops[i]? = some op → i = j → op = op' → ops[j]? = some op' := by
    rintro i j op op' hop rfl rfl
    exact hop
  refine
    { counts := ?_, inside := ?_, size := ?_
      enter := hsits.left.single (stands_bare rfl) (by decide)
      opening := fun i op hop => ?_, test := ?_, scope := ?_, step := ?_, back := ?_, exit := ?_, last := ?_
      count := fun n => ?_, body := fun n => ?_ }
  · show k < k + (1 + f.length)
    omega
  · show k + (1 + f.length) + 14 ≤ k + (1 + f.length + 14 + g.length)
    omega
  · show k + (1 + f.length + 14 + g.length) + 4 ≤ ops.size
    omega
  · refine hat (hinit.left.spelled spell_opening i op hop) ?_ rfl
    show k + (0 + 1) + f.length + i = k + (1 + f.length) + i
    omega
  · refine hat (htest.left.single (stands_jumpIfFalse _) (hreach hskip)) ?_ ?_
    · show k + (0 + 1) + f.length + 13 = k + (1 + f.length) + 13
      omega
    · show Op.jumpIfFalse _ = Op.jumpIfFalse
        (((k + (1 + f.length + 14 + g.length) + 2 : Nat) : Int) - (k + (1 + f.length) + 14 : Nat))
      congr 1
      omega
  · have hbody := hround.left.resolve hsize (by omega) (by omega)
    obtain ⟨h, rfl⟩ := hscope
    unfold Fragment.inScope at hbody
    rw [emit_eq, append_assoc] at hbody
    refine hat (hbody.left.single (stands_bare rfl) (by decide)) ?_ rfl
    show k + (0 + 1) + f.length + 13 + (0 + 1) = k + (1 + f.length) + 14
    omega
  · refine hat (hstep.left.single (stands_increment _) (by decide)) ?_ rfl
    show k + (0 + 1) + f.length + 13 + (0 + 1) + g.length = k + (1 + f.length + 14 + g.length)
    omega
  · refine hat (hback.left.single (stands_jump _) (hreach hturn)) ?_ ?_
    · show k + (0 + 1) + f.length + 13 + (0 + 1) + g.length + (0 + 1) =
        k + (1 + f.length + 14 + g.length) + 1
      omega
    · show Op.jump _ = Op.jump
        (((k + (1 + f.length) + 9 : Nat) : Int) - (k + (1 + f.length + 14 + g.length) + 2 : Nat))
      congr 1
      omega
  · refine hat (hlast.read (i := 0) rfl (stands_bare rfl) (by decide)) ?_ rfl
    show _ = k + (1 + f.length + 14 + g.length) + 2
    omega
  · refine hat (hlast.read (i := 1) rfl (stands_bare rfl) (by decide)) ?_ rfl
    show _ = k + (1 + f.length + 14 + g.length) + 3
    omega
  · have hends : Op.Secure u ops (· = k + (1 + f.length)) (k + (0 + 1) + f.length) (.still []) :=
      secure_end (by omega)
    exact hf.safe hsize hcode.left n (hends n) fun _ hy => by cases hy
  · have hstart : k + (0 + 1) + f.length + 13 + (0 + 1) = k + (1 + f.length) + 14 := by omega
    rw [hstart] at hround
    have hbody : Op.Secure u ops (fun i => i = k + (1 + f.length + 14 + g.length) ∨
        i = k + (1 + f.length + 14 + g.length) + 2) (k + (1 + f.length) + 14) (.still []) :=
      hg.secure_body hsize (hround.left.resolve hsize (by omega) (by omega)) (by omega) (by omega)
        ⟨by omega, by omega⟩ (by omega)
    exact hbody n

/-!
# Loops over a source
-/

/-- The instructions that ask the source for an iterator, and bind it. -/
def obtaining : List Instruction :=
  [.string "iter", .bare .getMember, .bare .call] ++ Fragment.bindTop Compiler.hiddenIter .inner ++ [.bare .pop]

/-- The instructions that ask the iterator for its next step, and bind it. -/
def asking (scope : Scope) : List Instruction :=
  [.count 0, .withText .getVar Compiler.hiddenIter, .string "next", .bare .getMember, .bare .call] ++
    Fragment.bindTop Compiler.hiddenStep scope ++ [.bare .pop]

/-- The instructions that take a part of the step. -/
def taking (n : Nat) : List Instruction :=
  [.withText .getVar Compiler.hiddenStep, .count n, .bare .getMember]

/-- The instructions that bind the element. -/
def binding (name : Text) : List Instruction :=
  taking 1 ++ Fragment.bindTop name .inner ++ [.bare .pop]

/-- The body of a loop over a source, with the scope of a round. -/
def turn (span : Span) (name : Text) (g : Fragment) : Fragment :=
  Fragment.inScope (Compiler.assignStmt span name (Compiler.stepPart span 1) .inner ++ g)

/-- A loop over a source, without its entry in the debug table. -/
def turns (span : Span) (name : Text) (f g : Fragment) : Fragment :=
  Fragment.loop (Compiler.assignStmt span Compiler.hiddenIter
      (Fragment.call span 0 Fragment.empty (Fragment.member span f "iter")) .inner ++
    Compiler.nextStep span .inner) (some (Compiler.stepPart span 2)) (turn span name g)
    (Compiler.nextStep span .nearest)

theorem eachLoop_eq (span : Span) (name : Text) (f g : Fragment) :
    Compiler.eachLoop span name f g = (turns span name f g).mark "Each" span :=
  rfl

/-- The places of a loop over a source whose code begins at position `k`. -/
def turnsSite (name : Text) (f body : Fragment) (k : Nat) : EachSite :=
  ⟨k, k + (2 + f.length), k + (2 + f.length + 20 + body.length), name⟩

theorem spell_obtaining : Spell obtaining EachSite.opening :=
  .cons ⟨stands_string _, rfl⟩ <| .cons ⟨stands_bare rfl, rfl⟩ <| .cons ⟨stands_bare rfl, rfl⟩ <|
  .cons ⟨stands_bare rfl, rfl⟩ <| .cons ⟨stands_string _, rfl⟩ <| .cons ⟨stands_bare rfl, rfl⟩ <|
  .cons ⟨stands_bare rfl, rfl⟩ .nil

theorem spell_asking (scope : Scope) : Spell (asking scope) (EachSite.stepping scope) :=
  .cons ⟨stands_count 0, rfl⟩ <| .cons ⟨stands_getVar _, rfl⟩ <| .cons ⟨stands_string _, rfl⟩ <|
  .cons ⟨stands_bare rfl, rfl⟩ <| .cons ⟨stands_bare rfl, rfl⟩ <| .cons ⟨stands_bare rfl, rfl⟩ <|
  .cons ⟨stands_string _, rfl⟩ <| .cons ⟨Takes.stands_assign scope, rfl⟩ <| .cons ⟨stands_bare rfl, rfl⟩ .nil

theorem spell_taking (n : Nat) : Spell (taking n)
    [.getVar Compiler.hiddenStep, .push (.number (Number.ofNat n)), .getMember] :=
  .cons ⟨stands_getVar _, rfl⟩ <| .cons ⟨stands_count n, rfl⟩ <| .cons ⟨stands_bare rfl, rfl⟩ .nil

theorem spell_binding (site : EachSite) : Spell (.bare .scopeEnter :: binding site.name) site.binding :=
  .cons ⟨stands_bare rfl, rfl⟩ <| .cons ⟨stands_getVar _, rfl⟩ <| .cons ⟨stands_count 1, rfl⟩ <|
  .cons ⟨stands_bare rfl, rfl⟩ <| .cons ⟨stands_bare rfl, rfl⟩ <| .cons ⟨stands_string _, rfl⟩ <|
  .cons ⟨stands_bare rfl, rfl⟩ <| .cons ⟨stands_bare rfl, rfl⟩ .nil

theorem code_assignStmt (span : Span) (t : Text) (f : Fragment) (scope : Scope) :
    (Compiler.assignStmt span t f scope).code = f.code ++ (Fragment.bindTop t scope ++ [Instruction.bare .pop]) := by
  show (Fragment.mark _ _ _).code ++ [Instruction.bare .pop] = _
  rw [mark_code]
  simp only [emit, code_append, varTarget, ofCode, Fragment.bindTop, List.append_assoc, List.cons_append, List.nil_append]

theorem exits_assignStmt (span : Span) (t : Text) (f : Fragment) (scope : Scope) :
    (Compiler.assignStmt span t f scope).exits = f.exits := by
  show (Fragment.mark _ _ _).exits = _
  rw [mark_exits]
  exact List.append_nil _

theorem code_stepPart (span : Span) (n : Nat) : (Compiler.stepPart span n).code = taking n := by
  show (Fragment.mark _ _ _).code = _
  rw [mark_code]
  rfl

theorem code_call (span : Span) (f : Fragment) (name : Text) :
    (Fragment.call span 0 Fragment.empty (Fragment.member span f name)).code =
      .count 0 :: (f.code ++ [Instruction.string name, .bare .getMember, .bare .call]) := by
  show (Fragment.mark _ _ _).code = _
  rw [mark_code]
  show _ ++ (Fragment.mark _ _ _).code ++ _ = _
  rw [mark_code]
  simp only [emit, Fragment.empty, List.nil_append, List.append_assoc, List.cons_append]

theorem exits_call (hf : f.exits = []) (span : Span) (name : Text) :
    (Fragment.call span 0 Fragment.empty (Fragment.member span f name)).exits = [] := by
  show (Fragment.mark _ _ _).exits = _
  rw [mark_exits]
  show [] ++ (Fragment.mark _ _ _).exits.map _ = _
  rw [mark_exits]
  show f.exits.map _ = _
  rw [hf, List.map_nil]

theorem code_nextStep (span : Span) (scope : Scope) : (Compiler.nextStep span scope).code = asking scope := by
  unfold Compiler.nextStep
  rw [code_assignStmt, code_call]
  show _ :: ((Fragment.mark _ _ _).code ++ _) ++ _ = _
  rw [mark_code]
  rfl

theorem exits_nextStep (span : Span) (scope : Scope) : (Compiler.nextStep span scope).exits = [] := by
  unfold Compiler.nextStep
  rw [exits_assignStmt, exits_call rfl]

/-- The code of a loop over a source, apart from entries of the debug table. -/
theorem code_turns (hf : f.exits = []) (span : Span) (name : Text) (g : Fragment) :
    let body := turn span name g
    let plain := ofCode [.bare .scopeEnter, .count 0] ++ (f ++ (ofCode (obtaining ++ (asking .inner ++ taking 2)) ++
      (ofCode [.withDistance .jumpIfFalse (body.length + 10 : Nat)] ++ (body.resolve (body.length + 10) body.length ++
        ofCode (asking .nearest ++ [Instruction.withDistance .jump (-((body.length + 13 : Nat) + 1 : Int)),
          .bare .scopeExit, .bare .pushNull])))))
    (turns span name f g).code = plain.code ∧ (turns span name f g).exits = plain.exits := by
  intro body plain
  have hstep : (Compiler.nextStep span .nearest).length = 9 := by
    rw [length, code_nextStep]
    rfl
  have htest : loopTest (some (Compiler.stepPart span 2)) (body.length + 10) =
      Compiler.stepPart span 2 ++ ofCode [.withDistance .jumpIfFalse (body.length + 10 : Nat)] := emit_eq _ _
  have hround : 4 + body.length + 9 = body.length + 13 := by omega
  have hpart : (Compiler.stepPart span 2 ++ ofCode [.withDistance .jumpIfFalse (body.length + 10 : Nat)]).length = 4 := by
    rw [length_append, length, code_stepPart]
    rfl
  have hloop : turns span name f g = ofCode [.bare .scopeEnter] ++
      (Compiler.assignStmt span Compiler.hiddenIter
        (Fragment.call span 0 Fragment.empty (Fragment.member span f "iter")) .inner ++ Compiler.nextStep span .inner ++
      (Compiler.stepPart span 2 ++ ofCode [.withDistance .jumpIfFalse (body.length + 10 : Nat)] ++
        (body.resolve (body.length + 10) body.length ++ (Compiler.nextStep span .nearest ++
          (ofCode [.withDistance .jump (-((body.length + 13 : Nat) + 1 : Int))] ++
            ofCode [.bare .scopeExit, .bare .pushNull]))))) := by
    unfold turns
    rw [loop_eq]
    show _ ++ (_ ++ (loopTest _ (body.length + (Compiler.nextStep span .nearest).length + 1) ++
      (body.resolve (body.length + (Compiler.nextStep span .nearest).length + 1) body.length ++ _))) = _
    rw [hstep, htest, hpart, hround]
  rw [hloop]
  constructor
  · simp only [plain, code_append, code_assignStmt, code_call, code_nextStep, code_stepPart, ofCode, obtaining,
      List.append_assoc, List.cons_append, List.nil_append]
  · simp only [plain, exits_append, exits_assignStmt, exits_call hf, exits_nextStep, ofCode, hf, List.map_nil,
      List.append_nil]
    rfl

/-- The body of a loop over a source begins with the instructions that bind the element. -/
theorem code_turn (span : Span) (name : Text) (g : Fragment) :
    (turn span name g).code = (ofCode (.bare .scopeEnter :: binding name) ++ (g ++ ofCode [.bare .scopeExit])).code ∧
      (turn span name g).exits =
        (ofCode (.bare .scopeEnter :: binding name) ++ (g ++ ofCode [.bare .scopeExit])).exits := by
  have hbind : (Compiler.assignStmt span name (Compiler.stepPart span 1) .inner).code = binding name := by
    rw [code_assignStmt, code_stepPart]
    rfl
  have hexits : (Compiler.assignStmt span name (Compiler.stepPart span 1) .inner).exits = [] := by
    rw [exits_assignStmt]
    show (Fragment.mark _ _ _).exits = _
    rw [mark_exits]
    rfl
  unfold turn Fragment.inScope
  rw [emit_eq, append_assoc, append_assoc]
  constructor
  · simp only [code_append, hbind, ofCode, List.cons_append, List.nil_append]
  · simp only [exits_append, hexits, ofCode, length, List.map_nil, List.append_nil, List.nil_append,
      List.map_map]
    refine List.map_congr_left fun e _ => ?_
    exact congrArg (LoopExit.mk · e.again) (Nat.add_assoc e.index 7 1)

theorem length_turn (span : Span) (name : Text) (g : Fragment) : (turn span name g).length = 8 + g.length + 1 := by
  rw [length, (code_turn span name g).1]
  simp only [code_append, List.length_append]
  exact (Nat.add_assoc 8 g.length 1).symm

/-- The entry of the source is among those of its loop. -/
theorem records_turns (hf : f.Records 0 f.length) (span : Span) (name : Text) (g : Fragment) :
    (turns span name f g).Records 2 f.length := by
  have hcall : (Fragment.call span 0 Fragment.empty (Fragment.member span f "iter")).Records 1 f.length :=
    ((((hf.emit [.string "iter", .bare .getMember]).mark "Member" span).right
      (Fragment.empty.emit [.count 0])).emit [.bare .call]).mark "Call" span
  have hiter : (Compiler.assignStmt span Compiler.hiddenIter
      (Fragment.call span 0 Fragment.empty (Fragment.member span f "iter")) .inner).Records 1 f.length :=
    (((hcall.left (varTarget Compiler.hiddenIter)).emit [.bare (assignOp .inner)]).mark "Assign" span).emit [.bare .pop]
  have hinit := (hiter.left (Compiler.nextStep span .inner)).right (ofCode [.bare .scopeEnter])
  exact hinit.left _

/-- A loop over a source has its places wherever it sits. -/
theorem loopAt_turns {span : Span} {name : Text} (hf : f.Steady u [] none)
    (hentry : f.length ≤ Slot.limit → f.Records 0 f.length)
    (hg : (turn span name g).Steady u [] (some (.still [])))
    (hlays : (turn span name g).length ≤ Slot.limit → ∃ a b x, (turn span name g).Takes a b x) :
    (turns span name f g).LoopAt u "Each" := by
  intro ops k leave again hsize hsits
  have hexits : f.exits = [] := List.eq_nil_iff_forall_not_mem.mpr fun e he => (hf.exits e he).2 rfl
  obtain ⟨hcode, hwaiting⟩ := code_turns hexits span name g
  obtain ⟨hround, hroundExits⟩ := code_turn span name g
  have hrounds := length_turn span name g
  generalize hbody : turn span name g = body at hg hlays hcode hwaiting hround hroundExits hrounds
  have hlength : (turns span name f g).length = 2 + f.length + 20 + body.length + 12 := by
    rw [length, hcode]
    simp only [code_append, List.length_append, resolve_code, length_patched]
    show 2 + (f.length + (19 + (1 + (body.length + 12)))) = _
    omega
  have hentries := hentry (by have := hsits.inside; omega)
  refine ⟨fun h => absurd h (by decide), fun _ => ⟨turnsSite name f body k, rfl, by rw [hlength]; rfl, ?_, ?_⟩⟩
  rotate_left
  · obtain ⟨e, he, hstop, hcount⟩ := records_turns hentries span name g
    refine ⟨e, he, ?_, ?_⟩
    · show e.stop + k = ((k + (2 + f.length) : Nat) : Int)
      omega
    · show e.length = ((k + (2 + f.length) : Nat) : Int) - (k + 2 : Nat)
      omega
  replace hsits := hsits.congr hcode.symm hwaiting.symm
  have hinside := hsits.inside
  have hsource := hsits.right (x := none) (closed_ofCode _)
  have hinit := hsource.right hf.exits
  have htest := hinit.right (x := none) (closed_ofCode _)
  have hresolved := htest.right (x := none) (closed_ofCode _)
  have hstep := hresolved.right (x := none) (closed_of_exits rfl)
  have hobtaining : obtaining.length = 7 := rfl
  have hasking : ∀ scope, (asking scope).length = 9 := fun _ => rfl
  have htaking : (taking 2).length = 3 := rfl
  simp only [length_append, length_ofCode, length_resolve, List.length_append, List.length_cons, List.length_nil,
    hobtaining, hasking, htaking] at hinside hsource hinit htest hresolved hstep
  have hreach : ∀ {d : Int}, d.natAbs ≤ ops.size → Number.fitsWord d = true := fun hd =>
    Op.fitsWord_of_natAbs (by omega)
  have hskip : ((body.length + 10 : Nat) : Int).natAbs ≤ ops.size := by omega
  have hback : (-((body.length + 13 : Nat) + 1 : Int)).natAbs ≤ ops.size := by omega
  have hat : ∀ {i j : Nat} {l l' : List Op}, Op.Spelled ops i l → i = j → l = l' → Op.Spelled ops j l' := by
    rintro i j l l' h rfl rfl
    exact h
  have hsitsBody := hresolved.left.resolve hsize (by omega) (by omega)
  have hstart : k + (0 + 1 + 1) + f.length + (7 + (9 + 3)) + (0 + 1) = k + (2 + f.length) + 20 := by omega
  rw [hstart] at hsitsBody hstep
  obtain ⟨a, b, x, htakes⟩ := hlays (by omega)
  have henter := hsits.left.spelled (.cons ⟨stands_bare rfl, rfl⟩ <| .cons ⟨stands_count 0, rfl⟩ .nil)
  refine
    { gives := ?_, inside := ?_, size := ?_, enter := henter
      head := ?_, tail := ?_, source := fun n => ?_, body := ?_, closed := fun i op hfrom hto hop => ?_ }
  · show k + 2 ≤ k + (2 + f.length)
    omega
  · show k + (2 + f.length) + 28 < k + (2 + f.length + 20 + body.length)
    omega
  · show k + (2 + f.length + 20 + body.length) + 12 ≤ ops.size
    omega
  · have hfirst := hinit.left.spelled (List.rel_append spell_obtaining (List.rel_append (spell_asking .inner) (spell_taking 2)))
    have hjump := htest.left.single (stands_jumpIfFalse _) (hreach hskip)
    have hbinding := (hsitsBody.congr hround.symm hroundExits.symm).left.spelled
      (spell_binding (turnsSite name f body k))
    refine hat (hfirst.join ((Op.Spelled.single hjump).join (hat hbinding ?_ rfl))) ?_ ?_
    · show k + (2 + f.length) + 20 = k + (0 + 1 + 1) + f.length + 19 + 1
      omega
    · show k + (0 + 1 + 1) + f.length = k + (2 + f.length)
      omega
    · have hdistance : ((body.length + 10 : Nat) : Int) =
          (turnsSite name f body k).leave - ((turnsSite name f body k).round : Nat) := by
        show _ = ((k + (2 + f.length + 20 + body.length) + 10 : Nat) : Int) - (k + (2 + f.length) + 20 : Nat)
        omega
      rw [hdistance]
      rfl
  · have hlast := hstep.spelled (List.rel_append (spell_asking .nearest)
      (.cons ⟨stands_jump _, hreach hback⟩ <| .cons ⟨stands_bare rfl, rfl⟩ <| .cons ⟨stands_bare rfl, rfl⟩ .nil))
    refine hat hlast ?_ ?_
    · show k + (2 + f.length) + 20 + body.length = k + (2 + f.length + 20 + body.length)
      omega
    · have hdistance : (-((body.length + 13 : Nat) + 1 : Int)) =
          (turnsSite name f body k).first - ((turnsSite name f body k).leave : Nat) := by
        show _ = ((k + (2 + f.length) + 16 : Nat) : Int) - (k + (2 + f.length + 20 + body.length) + 10 : Nat)
        omega
      rw [hdistance]
      rfl
  · cases n with
    | zero => trivial
    | succ n =>
      refine Op.safe_succ (henter 1 _ rfl) trivial (hf.safe hsize hsource.left n (secure_end ?_ n) fun _ hy => by cases hy)
      show k + (0 + 1 + 1) + f.length = k + (2 + f.length)
      omega
  · have hnext : k + (2 + f.length) + 20 + body.length = k + (2 + f.length + 20 + body.length) := by omega
    have hover : k + (2 + f.length) + 20 + (body.length + 10) = k + (2 + f.length + 20 + body.length) + 10 := by
      omega
    exact hg.secure_body hsize hsitsBody (by omega) (by omega) ⟨hnext, hnext⟩ hover
  · obtain ⟨j, rfl⟩ := Nat.exists_eq_add_of_le hfrom
    have hto : k + (2 + f.length) + 20 + j < k + (2 + f.length + 20 + body.length) := hto
    have hop : ops[k + (2 + f.length) + 20 + j]? = some op := hop
    refine (htakes.hands (i := j) hsitsBody hsize (by omega) (by omega) (by omega) hop).mono (fun t ht => ?_)
      fun _ _ => trivial
    have hfirst : (turnsSite name f body k).round = k + (2 + f.length) + 20 := rfl
    have hagain : (turnsSite name f body k).again = k + (2 + f.length + 20 + body.length) := rfl
    have hleave : (turnsSite name f body k).leave = k + (2 + f.length + 20 + body.length) + 10 := rfl
    rw [hfirst, hagain, hleave]
    rcases ht with ht | rfl | rfl <;> omega

end Fragment
end ScriptEngine
