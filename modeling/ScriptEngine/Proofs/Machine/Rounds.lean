import ScriptEngine.Proofs.Machine.Keeping
import ScriptEngine.Proofs.Program.Marks

/-!
# Rounds of counted loops

The instructions of a counted loop bind the number of rounds and their counter in the scope of the loop,
compare the two in front of every round, and count up behind it. What a round does to the engine is known
from what its body keeps.
-/

namespace ScriptEngine

/-- The activation comes from one state to another one, and is at none of the positions before. -/
inductive State.Nears (pending : List Pending) (k : Nat) (P : Nat → Prop) : State → State → Prop
  | refl (s : State) : Nears pending k P s s
  | on {s s' s'' : State} (hnot : ¬ s.Arrives pending k P) (hopen : ¬ s.Left pending k)
    (hnext : s.advance = .next s') (h : Nears pending k P s' s'') : Nears pending k P s s''

/-- Numbers are compared by a native of the library. -/
def Library.ComparesNumbers (l : Library) : Prop :=
  ∃ n, l.resolve (Key.join "lt" "Number") = some (.native n) ∧ n.arity = some 2 ∧
    ∀ x y w, l.behaviour n [.number x, .number y] w = .done (some (.boolean (x < y))) w

namespace LoopSite

/-- Where a round begins, or the loop is over. -/
def Turns (site : LoopSite) (i : Nat) : Prop :=
  i = site.round ∨ i = site.stop

theorem not_turns {site : LoopSite} {i : Nat} (hi : i < site.stop) (hne : i ≠ site.round) : ¬ site.Turns i :=
  fun hturns => hturns.elim hne (Nat.ne_of_lt hi)

/-- Where the body ends: in front of the step, or at the end of the loop's scope if the loop is left. -/
def Ends (site : LoopSite) (i : Nat) : Prop :=
  i = site.again ∨ i = site.leave

end LoopSite

namespace State

/-- The next transition opens a scope inside the frame that was not there before. -/
def OpensIn (f : FrameId) (s : State) : Prop :=
  ∃ s', s.advance = .next s' ∧ s'.machine.frame = some s.machine.world.store.frames.size ∧
    s'.machine.world.store.frame? s.machine.world.store.frames.size = some ⟨Table.empty, some f, .block⟩

/-- The activation executes the body of the counted loop `n` times, each time in a new scope inside the
frame, and then is behind the loop. Every round but the last is over where the next one is tested. -/
inductive Rounds (site : LoopSite) (pending : List Pending) (k : Nat) (f : FrameId) :
    Nat → State → State → Prop
  | over {s e : State} (h : s.Comes pending k site.Turns e) (hstop : e.machine.ip = site.stop) :
    Rounds site pending k f 0 s e
  | round {n : Nat} {s b a e : State} (h : s.Comes pending k site.Turns b) (hround : b.machine.ip = site.round)
    (hscope : b.OpensIn f) (hbody : b.Comes pending k site.Ends a) (hagain : a.machine.ip = site.again)
    (hrest : Rounds site pending k f n a e) : Rounds site pending k f (n + 1) s e

/-- A round of the counted loop begins: the first one, or one after a round whose body ended normally or by
`continue`. -/
inductive AtRound (site : LoopSite) (pending : List Pending) (k : Nat) (s : State) : State → Prop
  | first {b : State} (h : s.Comes pending k site.Turns b) (hround : b.machine.ip = site.round) :
    AtRound site pending k s b
  | next {b a b' : State} (h : AtRound site pending k s b) (hbody : b.Comes pending k site.Ends a)
    (hagain : a.machine.ip = site.again) (hnext : a.Comes pending k site.Turns b')
    (hround : b'.machine.ip = site.round) : AtRound site pending k s b'

end State

section
variable {pending : List Pending} {k : Nat} {P : Nat → Prop} {s s' s'' e : State} {m m' : Machine}
  {i j : Nat}

namespace State.Nears

theorem trans (h : Nears pending k P s s') (h' : Nears pending k P s' s'') :
    Nears pending k P s s'' := by
  induction h with
  | refl => exact h'
  | on hnot hopen hnext _ ih => exact .on hnot hopen hnext (ih h')

theorem comes (h : Nears pending k P s s') (h' : Comes pending k P s' e) :
    Comes pending k P s e := by
  induction h with
  | refl => exact h'
  | on hnot hopen hnext _ ih => exact .on hnot hopen hnext (ih h')

theorem leads (h : Nears pending k P s s') : s.Leads s' := by
  induction h with
  | refl => exact .refl
  | on _ _ hnext _ ih => exact .cons hnext ih

/-- Where the activation is left before, it comes to none of the positions. -/
theorem not_comes (h : Nears pending k P s s') (hleft : s'.Left pending k) : ¬ Comes pending k P s e := by
  induction h with
  | refl => exact fun hcomes => hcomes.not_left hleft
  | on hnot _ hnext _ ih => exact fun hcomes => ih hleft (hcomes.next hnot hnext)

/-- An instruction of the activation. -/
theorem step (hk : m.calls.size = k) (hip : m.ip = i) (hstop : ¬ P i)
    (hnext : State.advance ⟨m, pending, .running⟩ = .next s') :
    Nears pending k P ⟨m, pending, .running⟩ s' := by
  refine .on ?_ ?_ hnext (.refl _)
  · rintro ⟨-, -, -, j, hj, hstops⟩
    obtain rfl : j = i := Int.ofNat.inj (hj.symm.trans hip)
    exact hstop hstops
  · rintro ⟨-, hless⟩
    exact Nat.lt_irrefl _ (hk ▸ hless rfl)

/-- A transition while the activation waits for an outcome. -/
theorem busy {work : Pending} {mode : Mode} (hmode : mode ≠ .running)
    (hnext : State.advance ⟨m, work :: pending, mode⟩ = .next s') :
    Nears pending k P ⟨m, work :: pending, mode⟩ s' := by
  refine .on (fun h => hmode h.1) ?_ hnext (.refl _)
  rintro ⟨hpending, -⟩
  exact absurd (congrArg List.length hpending) (Nat.succ_ne_self _)

/-- Straight code. -/
theorem of_walks (h : State.Walks i j s s') (hs : s = ⟨m, pending, .running⟩) (hk : m.calls.size = k)
    (hstop : ∀ x, i ≤ x → x < j → ¬ P x) : Nears pending k P s s' := by
  induction h generalizing m with
  | refl => exact .refl _
  | @step i j m₁ m₂ rest s' hip hnext hcalls hwalks ih =>
    cases hs
    exact (step hk hip (hstop i (Nat.le_refl i) hwalks.le) hnext).trans
      (ih rfl (hcalls ▸ hk) fun x hle => hstop x (Nat.le_of_succ_le hle))

end State.Nears

theorem State.Rounds.of_nears {site : LoopSite} {f : FrameId} {n : Nat} (h : State.Nears pending k site.Turns s s')
    (h' : State.Rounds site pending k f n s' e) : State.Rounds site pending k f n s e := by
  rcases h' with ⟨hcomes, hstop⟩ | ⟨hcomes, hround, hscope, hbody, hagain, hrest⟩
  · exact .over (h.comes hcomes) hstop
  · exact .round (h.comes hcomes) hround hscope hbody hagain hrest

/-- Straight code leads from one place to another one. -/
theorem Machine.Passes.nears {l l' : List Value} {st st' : Store} (h : m.Passes i l st j l' st')
    (hm : m.At i l st m') (hk : m.calls.size = k) (pending : List Pending)
    (hstop : ∀ x, i ≤ x → x < j → ¬ P x) :
    ∃ m₂, m.At j l' st' m₂ ∧
      State.Nears pending k P ⟨m', pending, .running⟩ ⟨m₂, pending, .running⟩ := by
  obtain ⟨m₂, hm₂, hwalks⟩ := h pending m' hm
  exact ⟨m₂, hm₂, .of_walks hwalks rfl (hm.calls ▸ hk) hstop⟩

/-!
# Comparing numbers
-/

/-- Two numbers are copied, and the library is asked. -/
theorem Exec.step_less {n : NativeInfo} {x y : Float} {rest : List Value}
    (hn : m.library.resolve (Key.join "lt" "Number") = some (.native n))
    (hresolve : m.resolve (Key.join "lt" "Number") = m.library.resolve (Key.join "lt" "Number"))
    (hstack : m.Stacks (.number (Number.ofNat 2) :: .number y :: .number x :: rest)) :
    Exec.step (.dispatch "<") m = .ok (.call (.native n) [.number x, .number y]) (m.leaving rest) := by
  have hoperator : Exec.operator "<" (.number x) (m.leaving rest) =
      .ok (some (.native n)) (m.leaving rest) := by
    have hfound : (m.leaving rest).resolve (Key.join "lt" "Number") = some (.native n) := hresolve.trans hn
    show Exec.reads _ (m.leaving rest) = _
    unfold Exec.reads
    dsimp only
    rw [show Key.operatorMethod "<" = "lt" by decide]
    rw [show (m.leaving rest).world.store.typeName (.number x) = "Number" from rfl, hfound]
  rw [Exec.step_dispatch (n := 2) (l := [.number y, .number x]) (by decide) rfl hstack]
  show Exec.applyOperator "<" [.number x, .number y] (m.leaving rest) = _
  exact Exec.bind_of_ok hoperator

/-- For numbers that stand on the stack the native of the library is called. -/
theorem State.asks {p : Program} {x y : Float} {rest : List Value} (hless : m.library.ComparesNumbers)
    (hp : m.program = some p) (hip : m.ip = i) (hi : i < p.size) (hop : m.ops[i]? = some (.dispatch "<"))
    (hstack : m.Stacks (.number (Number.ofNat 2) :: .number y :: .number x :: rest))
    (hresolve : m.resolve (Key.join "lt" "Number") = m.library.resolve (Key.join "lt" "Number"))
    (pending : List Pending) :
    ∃ (n : NativeInfo) (m₁ : Machine), n.arity = some 2 ∧
      (∀ w, m₁.library.behaviour n [.number x, .number y] w = .done (some (.boolean (x < y))) w) ∧
      m.At i rest m.world.store m₁ ∧ State.advance ⟨m, pending, .running⟩ =
        .next ⟨m₁, .instruction :: pending, .invoking (.native n) [.number x, .number y]⟩ := by
  obtain ⟨n, hn, harity, hbehaviour⟩ := hless
  obtain ⟨j, hexecute⟩ := State.execute_eq hp hip hi hop pending
  rw [Exec.step_less (m := m.withJournal j) hn hresolve ⟨hstack.backed, hstack.items⟩] at hexecute
  exact ⟨n, (m.withJournal j).leaving rest, harity, hbehaviour x y,
    ((Machine.At.self hstack hip).withJournal j).leaving (l := [_, _, _]), hexecute⟩

/-- Numbers that stand on the stack are compared in three transitions. -/
theorem State.compares {p : Program} {x y : Float} {rest : List Value} (hless : m.library.ComparesNumbers)
    (hp : m.program = some p) (hip : m.ip = i) (hi : i < p.size) (hop : m.ops[i]? = some (.dispatch "<"))
    (hstack : m.Stacks (.number (Number.ofNat 2) :: .number y :: .number x :: rest))
    (hresolve : m.resolve (Key.join "lt" "Number") = m.library.resolve (Key.join "lt" "Number"))
    (hnatives : m.natives.size < nativeLimit) (hk : m.calls.size = k) (pending : List Pending)
    (hstop : ¬ P i) :
    ∃ m₂, m.At (i + 1) (.boolean (x < y) :: rest) m.world.store m₂ ∧
      State.Nears pending k P ⟨m, pending, .running⟩ ⟨m₂, pending, .running⟩ := by
  obtain ⟨n, m₁, harity, hbehaviour, hat, hnext⟩ := State.asks hless hp hip hi hop hstack hresolve pending
  have hlimit : ¬ nativeLimit ≤ m₁.natives.size := hat.natives ▸ Nat.not_le_of_lt hnatives
  have hstarted : State.advance ⟨m₁, .instruction :: pending, .invoking (.native n) [.number x, .number y]⟩ =
      .next ⟨m₁, .instruction :: pending, .delivering (.ok (.boolean (x < y)))⟩ := by
    show State.startNative m₁ (.instruction :: pending) n none [.number x, .number y] = _
    unfold State.startNative State.enterNative State.handOver
    simp only [harity, Exec.withReceiver, List.length_cons, List.length_nil, Nat.reduceAdd,
      bne_self_eq_false, Bool.false_eq_true, if_false, hlimit, hbehaviour, State.follow,
      Array.pop_push, Option.getD_some]
    rfl
  refine ⟨_, (hat.push (.boolean (x < y))).moved (i + 1), (State.Nears.step hk hip hstop hnext).trans
    ((State.Nears.busy (by rintro ⟨⟩) hstarted).trans (State.Nears.busy (by rintro ⟨⟩) ?_))⟩
  show Advance.next ⟨{ m₁ with stack := m₁.stack.push (.boolean (x < y)), ip := m₁.ip + 1 }, pending, .running⟩ = _
  rw [hat.ip_eq]
  rfl

/-- Where natives are nested as deep as they may be, the activation fails instead. -/
theorem State.refuses {p : Program} {x y : Float} {rest : List Value} (hless : m.library.ComparesNumbers)
    (hp : m.program = some p) (hip : m.ip = i) (hi : i < p.size) (hop : m.ops[i]? = some (.dispatch "<"))
    (hstack : m.Stacks (.number (Number.ofNat 2) :: .number y :: .number x :: rest))
    (hresolve : m.resolve (Key.join "lt" "Number") = m.library.resolve (Key.join "lt" "Number"))
    (hnatives : nativeLimit ≤ m.natives.size) (hk : m.calls.size = k) (pending : List Pending)
    (hstop : ¬ P i) :
    ∃ s', State.Nears pending k P ⟨m, pending, .running⟩ s' ∧ s'.Left pending k := by
  obtain ⟨n, m₁, harity, -, hat, hnext⟩ := State.asks hless hp hip hi hop hstack hresolve pending
  have hlimit : nativeLimit ≤ m₁.natives.size := hat.natives ▸ hnatives
  have hstarted : State.advance ⟨m₁, .instruction :: pending, .invoking (.native n) [.number x, .number y]⟩ =
      State.refuse m₁ (.instruction :: pending) .callDepth
        ("native call depth exceeds " ++ Text.ofNat nativeLimit ++ " in " ++ Key.display n.name) := by
    show State.startNative m₁ (.instruction :: pending) n none [.number x, .number y] = _
    unfold State.startNative State.enterNative
    simp only [harity, Exec.withReceiver, List.length_cons, List.length_nil, Nat.reduceAdd,
      bne_self_eq_false, Bool.false_eq_true, if_false, hlimit, if_true]
  refine ⟨_, (State.Nears.step hk hip hstop hnext).trans
    ((State.Nears.busy (by rintro ⟨⟩) hstarted).trans (State.Nears.busy (by rintro ⟨⟩) rfl)), rfl, ?_⟩
  intro h
  cases h

/-!
# Jumps
-/

/-- A jump, taken if the top of the stack is false. -/
theorem State.branches {p : Program} {t : Nat} {d : Int} {b : Bool} {l : List Value}
    (hp : m.program = some p) (hip : m.ip = i) (hi : i < p.size) (hop : m.ops[i]? = some (.jumpIfFalse d))
    (hstack : m.Stacks (.boolean b :: l)) (ht : (t : Int) = i + 1 + d) (hlimit : t ≤ Slot.limit)
    (hk : m.calls.size = k) (pending : List Pending) (hstop : ¬ P i) :
    ∃ m₂, m.At (bif b then i + 1 else t) l m.world.store m₂ ∧
      State.Nears pending k P ⟨m, pending, .running⟩ ⟨m₂, pending, .running⟩ := by
  obtain ⟨j, hexecute⟩ := State.execute_eq hp hip hi hop pending
  have hat : m.At i l m.world.store ((m.withJournal j).leaving l) :=
    ((Machine.At.self hstack hip).withJournal j).leaving (l := [_])
  rw [Exec.step_jumpIfFalse (m := m.withJournal j) ⟨hstack.backed, hstack.items⟩] at hexecute
  refine ⟨_, hat.moved _, State.Nears.step hk hip hstop (hexecute.trans ?_)⟩
  obtain ⟨m₂, hm₂⟩ : ∃ m₂, m₂ = (m.withJournal j).leaving l := ⟨_, rfl⟩
  rw [← hm₂] at hat ⊢
  cases b with
  | true =>
    show Advance.next ⟨{ m₂ with ip := m₂.ip + 1 }, pending, .running⟩ = _
    rw [hat.ip_eq]
    rfl
  | false =>
    show Advance.next ⟨{ m₂ with ip := Number.wrapWord (m₂.ip + 1 + d) }, pending, .running⟩ = _
    rw [hat.ip_eq, ← ht, wrapWord_of_le hlimit]
    rfl

theorem State.jumps {p : Program} {t : Nat} {d : Int} {l : List Value}
    (hp : m.program = some p) (hip : m.ip = i) (hi : i < p.size) (hop : m.ops[i]? = some (.jump d))
    (hstack : m.Stacks l) (ht : (t : Int) = i + 1 + d) (hlimit : t ≤ Slot.limit)
    (hk : m.calls.size = k) (pending : List Pending) (hstop : ¬ P i) :
    ∃ m₂, m.At t l m.world.store m₂ ∧
      State.Nears pending k P ⟨m, pending, .running⟩ ⟨m₂, pending, .running⟩ := by
  obtain ⟨j, hexecute⟩ := State.execute_eq hp hip hi hop pending
  have hat : m.At i l m.world.store (m.withJournal j) := (Machine.At.self hstack hip).withJournal j
  refine ⟨_, hat.moved _, State.Nears.step hk hip hstop (hexecute.trans ?_)⟩
  show Advance.next ⟨{ m.withJournal j with ip := Number.wrapWord (m.ip + 1 + d) }, pending, .running⟩ = _
  rw [hip, ← ht, wrapWord_of_le hlimit]

/-!
# Scopes
-/

/-- A scope is opened. -/
theorem State.opensScope {p : Program} (hp : m.program = some p) (hip : m.ip = i) (hi : i < p.size)
    (hop : m.ops[i]? = some .scopeEnter) (pending : List Pending) :
    ∃ j, State.advance ⟨m, pending, .running⟩ =
      .next ⟨{ (m.withStore (m.world.store.newFrame ⟨Table.empty, m.frame, .block⟩).2).withJournal j with
        frame := some m.world.store.frames.size, ip := ((i + 1 : Nat) : Int) }, pending, .running⟩ := by
  obtain ⟨j, hexecute⟩ := State.execute_eq hp hip hi hop pending
  refine ⟨j, (hexecute.trans (congrArg (State.after pending) (Exec.step_scopeEnter _))).trans ?_⟩
  show Advance.next ⟨{ (m.withStore (m.world.store.newFrame ⟨Table.empty, m.frame, .block⟩).2).withJournal j with
    frame := some m.world.store.frames.size, ip := m.ip + 1 }, pending, .running⟩ = _
  rw [hip]
  rfl

/-- A scope is left. -/
theorem State.leavesScope {p : Program} {f : FrameId} {fr : Frame} {l : List Value} (hp : m.program = some p)
    (hip : m.ip = i) (hi : i < p.size) (hop : m.ops[i]? = some .scopeExit) (hframe : m.frame = some f)
    (hfr : m.world.store.frame? f = some fr) (hblock : fr.isBoundary = false) (hstack : m.Stacks l)
    (hk : m.calls.size = k) (pending : List Pending) (hstop : ¬ P i) :
    ∃ m₂, { m with frame := fr.outer }.At (i + 1) l m.world.store m₂ ∧
      State.Nears pending k P ⟨m, pending, .running⟩ ⟨m₂, pending, .running⟩ := by
  obtain ⟨j, hexecute⟩ := State.execute_eq hp hip hi hop pending
  have hexit : Exec.step .scopeExit (m.withJournal j) =
      .ok .next { (m.withJournal j) with frame := fr.outer } := by
    have hfound : Exec.reads (fun m => m.frame.bind fun f => m.world.store.frame? f) (m.withJournal j) =
        .ok (some fr) (m.withJournal j) := by
      rw [← hfr, ← show m.frame.bind (fun f => m.world.store.frame? f) = m.world.store.frame? f by
        rw [hframe]; rfl]
      rfl
    show (Exec.reads _ >>= _) (m.withJournal j) = _
    rw [Exec.bind_of_ok hfound]
    dsimp only
    rw [hblock]
    rfl
  refine ⟨{ (m.withJournal j) with frame := fr.outer, ip := ((i + 1 : Nat) : Int) },
    .mk (m := { m with frame := fr.outer }) (j := j) hstack.backed hstack.items, State.Nears.step hk hip hstop ?_⟩
  refine (hexecute.trans (congrArg (State.after pending) hexit)).trans ?_
  show Advance.next ⟨{ (m.withJournal j) with frame := fr.outer, ip := m.ip + 1 }, pending, .running⟩ = _
  rw [hip]
  rfl

/-!
# The loop's own instructions
-/

/-- The store after a counted loop has bound the number of its rounds and their counter in a frame. -/
def Store.counting (s : Store) (f : FrameId) (y : Float) : Store :=
  (s.define f Compiler.hiddenCount (.number y)).define f Compiler.hiddenIndex (.number (Number.ofNat 0))

namespace Store

variable {st : Store} {f : FrameId} {fr : Frame} {y : Float} {name : Text}

theorem Lacks.newFrame (fr : Frame) (h : st.Lacks name fr.outer) (hvar : fr.vars.get? name = none) :
    (st.newFrame fr).2.Lacks name (some (st.newFrame fr).1) :=
  .frame (newFrame_frame? st fr) hvar (h.extends (Grows.newFrame st fr).toExtends fun _ hlt hnone =>
    (var_congr (frame?_newFrame_of_lt fr hlt) name).trans hnone)

theorem counting_extends (st : Store) (f : FrameId) (y : Float) : st.Extends (st.counting f y) :=
  ((Grows.define st f _ _).trans (.define _ f _ _)).toExtends

theorem counting_index (hf : st.frame? f = some fr) :
    (st.counting f y).var f Compiler.hiddenIndex = some (.number (Number.ofNat 0)) := by
  obtain ⟨fr', hf', -⟩ := (Grows.define st f Compiler.hiddenCount (.number y)).frames f fr hf
  exact var_define hf' _ _

theorem counting_count (hf : st.frame? f = some fr) :
    (st.counting f y).var f Compiler.hiddenCount = some (.number y) :=
  (var_define_of_ne _ _ (Or.inr (by decide))).trans (var_define hf _ _)

/-- Other names stay as they are. -/
theorem counting_var (st : Store) (f g : FrameId) (y : Float) (hindex : name ≠ Compiler.hiddenIndex)
    (hcount : name ≠ Compiler.hiddenCount) : (st.counting f y).var g name = st.var g name :=
  (var_define_of_ne _ _ (Or.inr hindex.symm)).trans (var_define_of_ne _ _ (Or.inr hcount.symm))

theorem Lacks.counting {o : Option FrameId} (h : st.Lacks name o) (f : FrameId) (y : Float)
    (hindex : name ≠ Compiler.hiddenIndex) (hcount : name ≠ Compiler.hiddenCount) :
    (st.counting f y).Lacks name o :=
  h.extends (counting_extends st f y) fun g _ hnone => (counting_var st f g y hindex hcount).trans hnone

end Store

/-- The engine executes a program with the counted loop in it, asks its library to compare numbers, and has
`k` calls in progress. -/
structure LoopSite.Ready (site : LoopSite) (p : Program) (k : Nat) (m : Machine) : Prop where
  written : site.Written m.ops
  program : m.program = some p
  size : m.ops.size = p.size
  limit : m.ops.size ≤ Slot.limit
  calls : m.calls.size = k
  less : m.library.ComparesNumbers

namespace LoopSite.Ready

variable {site : LoopSite} {p : Program} {l : List Value} {st : Store} {f : FrameId} {x y : Float}

theorem inside (h : site.Ready p k m) (hi : i < site.stop) : i < p.size :=
  h.size ▸ Nat.lt_of_lt_of_le hi h.written.size

theorem round_lt (h : site.Ready p k m) : site.round < site.again :=
  Nat.lt_of_le_of_ne h.written.inside fun heq => by
    cases (heq ▸ h.written.scope).symm.trans h.written.step

theorem moved {i : Nat} (h : site.Ready p k m) (hat : m.At i l st m') : site.Ready p k m' :=
  ⟨hat.ops ▸ h.written, hat.program.trans h.program, hat.ops ▸ h.size, hat.ops ▸ h.limit, hat.calls ▸ h.calls,
    hat.library ▸ h.less⟩

theorem counted_lt (h : site.Ready p k m) {j : Nat} (hj : j < 14) : site.counted + j < site.stop := by
  have hround := h.round_lt
  unfold LoopSite.round at hround
  unfold LoopSite.stop
  omega

/-- The operands of the comparison are loaded. -/
theorem loads (h : site.Ready p k m) (hip : m.ip = site.first) (hframe : m.frame = some f)
    (hstack : m.Stacks l) (hindex : m.world.store.var f Compiler.hiddenIndex = some (.number x))
    (hcount : m.world.store.var f Compiler.hiddenCount = some (.number y))
    (pending : List Pending) (hstop : ∀ j, site.first ≤ j → j < site.round → ¬ P j) :
    ∃ m₁, m.At (site.counted + 12) (.number (Number.ofNat 2) :: .number y :: .number x :: l) m.world.store m₁ ∧
      State.Nears pending k P ⟨m, pending, .running⟩ ⟨m₁, pending, .running⟩ := by
  have hfound : ∀ {name v}, m.world.store.var f name = some v → m.resolve name = some v := by
    intro name v hv
    unfold Machine.resolve
    rw [hframe, Store.lookup_of_var hv]
  have hload : m.Passes site.first l m.world.store (site.counted + 12)
      (.number (Number.ofNat 2) :: .number y :: .number x :: l) m.world.store :=
    (Machine.passes_getVar h.program (h.inside (h.counted_lt (j := 9) (by decide))) (h.written.op 9 rfl)
      (hfound hindex)).trans
    ((Machine.passes_getVar h.program (h.inside (h.counted_lt (j := 10) (by decide))) (h.written.op 10 rfl)
      (hfound hcount)).trans
    (Machine.passes_push h.program (h.inside (h.counted_lt (j := 11) (by decide))) (h.written.op 11 rfl)))
  exact hload.nears (Machine.At.self hstack hip) h.calls pending fun j hj hlt =>
    hstop j hj (Nat.lt_trans hlt (by unfold LoopSite.round; omega))

/-- The test of a round: on to the body, or to the end of the loop. -/
theorem tests (h : site.Ready p k m) (hip : m.ip = site.first) (hframe : m.frame = some f)
    (hstack : m.Stacks l) (hindex : m.world.store.var f Compiler.hiddenIndex = some (.number x))
    (hcount : m.world.store.var f Compiler.hiddenCount = some (.number y))
    (hresolve : m.resolve (Key.join "lt" "Number") = m.library.resolve (Key.join "lt" "Number"))
    (hnatives : m.natives.size < nativeLimit) (pending : List Pending)
    (hstop : ∀ j, site.first ≤ j → j < site.round → ¬ P j) :
    ∃ m₂, m.At (if x < y then site.round else site.leave) l m.world.store m₂ ∧
      State.Nears pending k P ⟨m, pending, .running⟩ ⟨m₂, pending, .running⟩ := by
  obtain ⟨m₁, hat₁, hnears₁⟩ := h.loads hip hframe hstack hindex hcount pending hstop
  obtain ⟨m₂, hat₂, hnears₂⟩ := State.compares (m := m₁) (P := P) (k := k)
    (i := site.counted + 12) (hat₁.library ▸ h.less) (hat₁.program.trans h.program) hat₁.ip_eq
    (h.inside (h.counted_lt (by decide))) (hat₁.ops ▸ h.written.op 12 rfl) hat₁.operands
    ((hat₁.resolve _).trans (hat₁.library ▸ hresolve)) (hat₁.natives ▸ hnatives)
    (hat₁.calls ▸ h.calls) pending (hstop _ (by unfold LoopSite.first; omega) (by unfold LoopSite.round; omega))
  rw [hat₁.store] at hat₂
  replace hat₂ := hat₁.trans hat₂
  have hlimit : site.leave ≤ Slot.limit := by
    refine Nat.le_trans ?_ (Nat.le_trans h.written.size h.limit)
    unfold LoopSite.leave LoopSite.stop
    omega
  obtain ⟨m₃, hat₃, hnears₃⟩ := State.branches (m := m₂) (P := P) (k := k)
    (i := site.counted + 13) (t := site.leave) (hat₂.program.trans h.program) hat₂.ip_eq
    (h.inside (h.counted_lt (by decide))) (hat₂.ops ▸ h.written.test) hat₂.operands
    (by unfold LoopSite.round; omega) hlimit (hat₂.calls ▸ h.calls) pending
    (hstop _ (by unfold LoopSite.first; omega) (by unfold LoopSite.round; omega))
  rw [hat₂.store] at hat₃
  replace hat₃ := hat₂.trans hat₃
  refine ⟨m₃, ?_, hnears₁.trans (hnears₂.trans hnears₃)⟩
  by_cases hxy : x < y
  · rw [if_pos hxy]
    rw [decide_eq_true hxy] at hat₃
    exact hat₃
  · rw [if_neg hxy]
    rw [decide_eq_false hxy] at hat₃
    exact hat₃

/-- The number on the stack and the counter are bound in the current scope. -/
theorem opens (h : site.Ready p k m) (hip : m.ip = site.counted) (hframe : m.frame = some f)
    (hstack : m.Stacks (.number y :: l)) (pending : List Pending)
    (hstop : ∀ j, site.counted ≤ j → j < site.round → ¬ P j) :
    ∃ m₂, m.At site.first l (m.world.store.counting f y) m₂ ∧
      State.Nears pending k P ⟨m, pending, .running⟩ ⟨m₂, pending, .running⟩ := by
  obtain ⟨st, hst⟩ : ∃ st, st = m.world.store.define f Compiler.hiddenCount (.number y) := ⟨_, rfl⟩
  have hinside : ∀ {j}, j < 14 → site.counted + j < p.size := fun hj => h.inside (h.counted_lt hj)
  have hcount : m.Passes site.counted (.number y :: l) m.world.store (site.counted + 4) l st := by
    rw [hst]
    exact (Machine.passes_push h.program (hinside (j := 0) (by decide)) (h.written.op 0 rfl)).trans
      ((Machine.passes_push h.program (hinside (j := 1) (by decide)) (h.written.op 1 rfl)).trans
      ((Machine.passes_assignInner h.program (hinside (j := 2) (by decide)) (h.written.op 2 rfl) hframe).trans
      (Machine.passes_pop h.program (hinside (j := 3) (by decide)) (h.written.op 3 rfl))))
  have hindex : m.Passes (site.counted + 4) l st site.first l (m.world.store.counting f y) := by
    unfold Store.counting
    rw [← hst]
    exact (Machine.passes_push h.program (hinside (j := 4) (by decide)) (h.written.op 4 rfl)).trans
      ((Machine.passes_push h.program (hinside (j := 5) (by decide)) (h.written.op 5 rfl)).trans
      ((Machine.passes_push h.program (hinside (j := 6) (by decide)) (h.written.op 6 rfl)).trans
      ((Machine.passes_assignInner h.program (hinside (j := 7) (by decide)) (h.written.op 7 rfl) hframe).trans
      (Machine.passes_pop h.program (hinside (j := 8) (by decide)) (h.written.op 8 rfl)))))
  exact (hcount.trans hindex).nears (Machine.At.self hstack hip) h.calls pending fun j hj hlt =>
    hstop j hj (Nat.lt_trans hlt (by unfold LoopSite.round LoopSite.first; omega))

/-- The counter is counted up where it is bound, and the next test is made. -/
theorem steps (h : site.Ready p k m) (hip : m.ip = site.again) (hframe : m.frame = some f) (hstack : m.Stacks l)
    (hindex : m.world.store.var f Compiler.hiddenIndex = some (.number x))
    (pending : List Pending) (hstop : ∀ j, site.again ≤ j → j < site.leave → ¬ P j) :
    ∃ m₂, m.At site.first l (m.world.store.define f Compiler.hiddenIndex (.number (x + 1))) m₂ ∧
      State.Nears pending k P ⟨m, pending, .running⟩ ⟨m₂, pending, .running⟩ := by
  have hbump : m.Passes site.again l m.world.store (site.again + 1) l
      (m.world.store.define f Compiler.hiddenIndex (.number (x + 1))) := by
    refine Machine.passes_step h.program (h.inside (by unfold LoopSite.stop; omega)) h.written.step
      fun m₁ hm₁ => ⟨_, ?_, hm₁.withStore _⟩
    have hlookup : m₁.world.store.lookup m₁.frame Compiler.hiddenIndex false = some (.number x, f) := by
      rw [hm₁.frame, hm₁.store, hframe]
      exact Store.lookup_of_var hindex
    show (Exec.bump Compiler.hiddenIndex true >>= _) m₁ = _
    refine Exec.bind_of_ok (a := ()) ?_
    unfold Exec.bump
    rw [Exec.bind_of_ok (show Exec.reads (fun m => m.world.store.lookup m.frame Compiler.hiddenIndex false) m₁ =
      .ok (some (.number x, f)) m₁ by rw [← hlookup]; rfl), ← hm₁.store]
    rfl
  obtain ⟨m₁, hat₁, hnears₁⟩ := hbump.nears (P := P) (k := k)
    (Machine.At.self hstack hip) h.calls pending fun j hj hlt => hstop j hj (by unfold LoopSite.leave; omega)
  have hlimit : site.first ≤ Slot.limit :=
    Nat.le_trans (Nat.le_of_lt (h.counted_lt (j := 9) (by decide))) (Nat.le_trans h.written.size h.limit)
  obtain ⟨m₂, hat₂, hnears₂⟩ := State.jumps (m := m₁) (P := P) (k := k)
    (i := site.again + 1) (t := site.first) (hat₁.program.trans h.program) hat₁.ip_eq
    (h.inside (by unfold LoopSite.stop; omega)) (hat₁.ops ▸ h.written.back) hat₁.operands
    (by unfold LoopSite.leave; omega) hlimit (hat₁.calls ▸ h.calls) pending
    (hstop _ (by omega) (by unfold LoopSite.leave; omega))
  rw [hat₁.store] at hat₂
  exact ⟨m₂, hat₁.trans hat₂, hnears₁.trans hnears₂⟩

/-- The scope of the loop is left, and the loop has no value. -/
theorem closes (h : site.Ready p k m) (hip : m.ip = site.leave) (hframe : m.frame = some f) {fr : Frame}
    (hfr : m.world.store.frame? f = some fr) (hblock : fr.isBoundary = false) (hstack : m.Stacks l)
    (pending : List Pending) (hstop : ∀ j, site.leave ≤ j → j < site.stop → ¬ P j) :
    ∃ m₂, { m with frame := fr.outer }.At site.stop (.null :: l) m.world.store m₂ ∧
      State.Nears pending k P ⟨m, pending, .running⟩ ⟨m₂, pending, .running⟩ := by
  have hinside : site.leave + 1 < site.stop := by
    unfold LoopSite.stop LoopSite.leave
    omega
  obtain ⟨m₁, hat₁, hnears₁⟩ := State.leavesScope (P := P) h.program hip (h.inside (Nat.lt_of_succ_lt hinside))
    h.written.exit hframe hfr hblock hstack h.calls pending (hstop _ (Nat.le_refl _) (Nat.lt_of_succ_lt hinside))
  obtain ⟨m₂, hat₂, hnears₂⟩ := (Machine.passes_push (m := { m with frame := fr.outer }) (l := l)
    (s := m.world.store) h.program (h.inside hinside) h.written.last).nears (P := P) (k := k) hat₁ h.calls pending
    fun j hj hlt => hstop j (Nat.le_of_succ_le hj) (by unfold LoopSite.stop LoopSite.leave at *; omega)
  exact ⟨m₂, hat₂, hnears₁.trans hnears₂⟩

theorem opensIn (h : site.Ready p k m) (hip : m.ip = site.round) (hframe : m.frame = some f)
    (pending : List Pending) : State.OpensIn f ⟨m, pending, .running⟩ := by
  obtain ⟨j, hnext⟩ := State.opensScope h.program hip
    (h.inside (h.round_lt.trans (by unfold LoopSite.stop; omega))) h.written.scope pending
  refine ⟨_, hnext, rfl, ?_⟩
  rw [← hframe]
  exact Store.newFrame_frame? m.world.store ⟨Table.empty, m.frame, .block⟩

/-- Where natives are nested as deep as they may be, the loop neither begins a round nor comes to its end. -/
theorem starves (h : site.Ready p k m) (hip : m.ip = site.counted) (hframe : m.frame = some f) {fr : Frame}
    (hfr : m.world.store.frame? f = some fr) (hstack : m.Stacks (.number y :: l))
    (hlacks : m.world.store.Lacks (Key.join "lt" "Number") m.frame) (hnatives : nativeLimit ≤ m.natives.size)
    (pending : List Pending) (e : State) : ¬ State.Comes pending k site.Turns ⟨m, pending, .running⟩ e := by
  have hturns : ∀ {j}, j < site.round → ¬ site.Turns j := fun hj =>
    LoopSite.not_turns (Nat.lt_trans hj (h.round_lt.trans (by unfold LoopSite.stop; omega))) (Nat.ne_of_lt hj)
  obtain ⟨m₁, hat₁, hnears₁⟩ := h.opens hip hframe hstack pending (P := site.Turns) fun j _ hj => hturns hj
  have hready₁ := h.moved hat₁
  obtain ⟨m₂, hat₂, hnears₂⟩ := hready₁.loads hat₁.ip_eq (hat₁.frame.trans hframe) hat₁.operands
    (hat₁.store ▸ Store.counting_index hfr) (hat₁.store ▸ Store.counting_count hfr) pending (P := site.Turns)
    fun j _ hj => hturns hj
  have hlacks₂ : m₂.world.store.Lacks (Key.join "lt" "Number") m₂.frame := by
    rw [hat₂.store, hat₁.store, hat₂.frame, hat₁.frame]
    exact hlacks.counting f y (by decide) (by decide)
  have hresolve : m₂.resolve (Key.join "lt" "Number") = m₂.library.resolve (Key.join "lt" "Number") := by
    unfold Machine.resolve
    rw [hlacks₂.lookup]
  obtain ⟨s', hnears₃, hleft⟩ := State.refuses (P := site.Turns) (hat₂.library ▸ hready₁.less)
    (hat₂.program.trans hready₁.program) hat₂.ip_eq (hready₁.inside (hready₁.counted_lt (j := 12) (by decide)))
    (hat₂.ops ▸ hready₁.written.op 12 rfl) hat₂.operands hresolve
    (by rw [hat₂.natives, hat₁.natives]; exact hnatives) (hat₂.calls ▸ hready₁.calls) pending
    (hturns (by unfold LoopSite.round; omega))
  exact (hnears₁.trans (hnears₂.trans hnears₃)).not_comes hleft

end LoopSite.Ready

end

/-!
# From round to round
-/

/-- At position `j` of the loop, in round `i` of `n`: counter and number of rounds are bound in the scope of
the loop, which lies in the frame `o`, and the operands are those that the loop began with. -/
structure Machine.Counts (m : Machine) (f : FrameId) (o : Option FrameId) (l : List Value) (n i j : Nat) :
    Prop where
  ip : m.ip = j
  frame : m.frame = some f
  operands : m.Stacks l
  index : m.world.store.var f Compiler.hiddenIndex = some (.number (Number.ofNat i))
  count : m.world.store.var f Compiler.hiddenCount = some (.number (Number.ofNat n))
  scope : ∃ fr, m.world.store.frame? f = some fr ∧ fr.outer = o ∧ fr.isBoundary = false
  natives : m.natives.size < nativeLimit

/-- A program with the counted loop in it runs on the engine; the names of the loop are left alone, and
numbers are compared by the library. -/
structure LoopSite.Kept (site : LoopSite) (u : Usage) (p : Program) (code : Op.Fitted) (m : Machine) :
    Prop where
  stands : site.Stands u code.ops
  laid : site.Laid code.ty
  index : u.name Compiler.hiddenIndex = false
  count : u.name Compiler.hiddenCount = false
  size : code.ops.size = p.size
  less : m.library.ComparesNumbers
  resolve : ∀ s, m.Reaches p s → s.machine.resolve (Key.join "lt" "Number") =
    s.machine.library.resolve (Key.join "lt" "Number")

section
variable {site : LoopSite} {u : Usage} {p : Program} {code : Op.Fitted} {m m₁ m₂ : Machine} {r : Regime}
  {pending : List Pending} {k : Nat} {P : Nat → Prop} {f : FrameId} {o : Option FrameId}
  {l : List Value} {n i j j' : Nat} {s b a e : State}

namespace Machine.Counts

/-- The loop's scope is as it was where the store is. -/
theorem moved (h : m₁.Counts f o l n i j) (hat : m₁.At j' l m₁.world.store m₂) : m₂.Counts f o l n i j' where
  ip := hat.ip_eq
  frame := hat.frame.trans h.frame
  operands := hat.operands
  index := by
    rw [hat.store]
    exact h.index
  count := by
    rw [hat.store]
    exact h.count
  scope := by
    rw [hat.store]
    exact h.scope
  natives := hat.natives ▸ h.natives

/-- The test of a round. -/
theorem tests (hready : site.Ready p k m₁) (h : m₁.Counts f o l n i site.first)
    (hresolve : m₁.resolve (Key.join "lt" "Number") = m₁.library.resolve (Key.join "lt" "Number"))
    (hi : i < 2 ^ 53) (hn : n < 2 ^ 53) (pending : List Pending)
    (hstop : ∀ j, site.first ≤ j → j < site.round → ¬ P j) :
    ∃ m₂, m₂.Counts f o l n i (if i < n then site.round else site.leave) ∧ m₂.calls = m₁.calls ∧
      State.Nears pending k P ⟨m₁, pending, .running⟩ ⟨m₂, pending, .running⟩ := by
  obtain ⟨m₂, hat, hnears⟩ := hready.tests h.ip h.frame h.operands h.index h.count
    hresolve h.natives pending hstop
  have hless : Number.ofNat i < Number.ofNat n ↔ i < n :=
    (Number.lt_iff (Number.value?_ofNat hi) (Number.value?_ofNat hn)).trans Nat.cast_lt
  simp only [hless] at hat
  exact ⟨m₂, h.moved hat, hat.calls, hnears⟩

/-- The step behind a round. -/
theorem steps (hready : site.Ready p k m₁) (h : m₁.Counts f o l n i site.again) (hi : i + 1 < 2 ^ 53)
    (pending : List Pending) (hstop : ∀ j, site.again ≤ j → j < site.leave → ¬ P j) :
    ∃ m₂, m₂.Counts f o l n (i + 1) site.first ∧ m₂.calls = m₁.calls ∧
      State.Nears pending k P ⟨m₁, pending, .running⟩ ⟨m₂, pending, .running⟩ := by
  obtain ⟨m₂, hat, hnears⟩ := hready.steps h.ip h.frame h.operands h.index pending hstop
  obtain ⟨fr, hfr, houter, hblock⟩ := h.scope
  obtain ⟨fr', hfr', hkind, houter'⟩ := (Store.Grows.define m₁.world.store f Compiler.hiddenIndex
    (.number (Number.ofNat i + 1))).frames f fr hfr
  refine ⟨m₂, ⟨hat.ip_eq, hat.frame.trans h.frame, hat.operands, ?_, ?_, ⟨fr', ?_, houter'.trans houter, ?_⟩,
    hat.natives ▸ h.natives⟩, hat.calls, hnears⟩
  · rw [hat.store, Store.var_define hfr, Number.ofNat_succ hi]
  · rw [hat.store, Store.var_define_of_ne _ _ (Or.inr (by decide))]
    exact h.count
  · rw [hat.store]
    exact hfr'
  · unfold Frame.isBoundary at hblock ⊢
    rw [hkind]
    exact hblock

/-- The end of the loop. -/
theorem closes (hready : site.Ready p k m₁) (h : m₁.Counts f o l n i site.leave) (pending : List Pending)
    (hstop : ∀ j, site.leave ≤ j → j < site.stop → ¬ P j) :
    ∃ m₂ : Machine, m₂.ip = site.stop ∧ m₂.calls = m₁.calls ∧ m₂.frame = o ∧ m₂.Stacks (.null :: l) ∧
      State.Nears pending k P ⟨m₁, pending, .running⟩ ⟨m₂, pending, .running⟩ := by
  obtain ⟨fr, hfr, houter, hblock⟩ := h.scope
  obtain ⟨m₂, hat, hnears⟩ := hready.closes h.ip h.frame hfr hblock h.operands pending hstop
  exact ⟨m₂, hat.ip_eq, hat.calls, hat.frame.trans houter, hat.operands, hnears⟩

end Machine.Counts

namespace LoopSite.Kept

theorem ready (h : site.Kept u p code m) (hr : r.Governs u p code m) (hreaches : m.Reaches p s)
    (hk : s.machine.calls.size = k) :
    site.Ready p k s.machine := by
  have hkeeps := (hr.usage hreaches).keeps
  have hops : s.machine.ops = code.ops := hkeeps.ops
  have hlibrary : s.machine.library = m.library := hkeeps.library
  exact ⟨hops ▸ h.stands.toWritten, hkeeps.program, hops ▸ h.size, hops ▸ hr.limit, hk,
    hlibrary ▸ h.less⟩

/-- The body of a round, which ends in front of the step, leaves to the loop what it has bound. -/
theorem body_counts (h : site.Kept u p code m) (hr : r.Governs u p code m)
    (hlive : (code.ty site.counted).live = true)
    (hreaches : m.Reaches p ⟨m₁, pending, .running⟩) (hk : m₁.calls.size = k)
    (hcounts : m₁.Counts f o l n i site.round)
    (hbody : State.Comes pending k site.Ends ⟨m₁, pending, .running⟩ a) (hagain : a.machine.ip = site.again) :
    a.machine.Counts f o l n i site.again := by
  have hbare := h.laid.round hlive
  have hresumes := hbody.resumes hr hreaches hk hcounts.frame hcounts.ip
    (by rw [hbare]; exact List.not_mem_nil) h.stands.body hagain
  obtain ⟨fr, hfr, houter, hblock⟩ := hcounts.scope
  have hlt : f < m₁.world.store.frames.size := (Array.getElem?_eq_some_iff.mp hfr).1
  obtain ⟨fr', hfr', hkind, houter'⟩ := hresumes.keeps.frames.frames f fr hfr
  obtain ⟨below, l₁, l₂, known, hstack₁, hlen₁, hstack₂, hfill₂⟩ := hresumes.stack
  have hlen₂ := hfill₂.length
  rw [hbare] at hlen₁
  rw [h.laid.again hlive hresumes.live] at hlen₂
  obtain rfl := List.eq_nil_of_length_eq_zero hlen₁
  obtain rfl := List.eq_nil_of_length_eq_zero hlen₂
  have hbelow : below = l := hstack₁.items.symm.trans hcounts.operands.items
  refine ⟨hagain, hresumes.frame (h.laid.againScopes hresumes.live hlive), hbelow ▸ hstack₂, ?_, ?_,
    ⟨fr', hfr', houter'.trans houter, ?_⟩, hresumes.natives ▸ hcounts.natives⟩
  · rw [hresumes.keeps.vars f _ hlt ⟨h.index, Or.inl (Nat.le_refl f)⟩]
    exact hcounts.index
  · rw [hresumes.keeps.vars f _ hlt ⟨h.count, Or.inl (Nat.le_refl f)⟩]
    exact hcounts.count
  · unfold Frame.isBoundary at hblock ⊢
    rw [hkind]
    exact hblock

/-- From the test of round `i` on the loop executes its body as often as is left, if every round is over where
the next one is tested. -/
theorem rounds (h : site.Kept u p code m) (hr : r.Governs u p code m)
    (hlive : (code.ty site.counted).live = true) (hn : n < 2 ^ 53) {left : Nat}
    (hleft : i + left = n) (hreaches : m.Reaches p ⟨m₁, pending, .running⟩) (hk : m₁.calls.size = k)
    (hcounts : m₁.Counts f o l n i site.first) {s : State}
    (hrounds : ∀ b, State.Comes pending k site.Turns ⟨m₁, pending, .running⟩ b → b.machine.ip = site.round →
      s.AtRound site pending k b)
    (hbody : ∀ b, s.AtRound site pending k b →
      ∃ a, b.Comes pending k site.Ends a ∧ a.machine.ip = site.again) :
    ∃ e, State.Rounds site pending k f left ⟨m₁, pending, .running⟩ e ∧ e.machine.frame = o ∧
      e.machine.Stacks (.null :: l) := by
  have hround : site.round < site.again := (h.ready hr hreaches hk).round_lt
  have hstop : site.stop = site.again + 4 := rfl
  induction left generalizing i m₁ with
  | zero =>
    obtain rfl : i = n := hleft
    obtain ⟨m₂, hcounts₂, hcalls₂, hnears⟩ := hcounts.tests (h.ready hr hreaches hk)
      (h.resolve _ hreaches) hn hn pending (P := site.Turns) fun j _ hj => not_turns (by omega) (Nat.ne_of_lt hj)
    rw [if_neg (Nat.lt_irrefl i)] at hcounts₂
    have hready₂ := h.ready hr (hreaches.trans hnears.leads) (congrArg Array.size hcalls₂ |>.trans hk)
    obtain ⟨m₃, hip, hcalls₃, hframe, hstacks, hnears₃⟩ := hcounts₂.closes hready₂ pending (P := site.Turns)
      fun j hle hj => not_turns hj (by unfold leave at hle; omega)
    have harrives : State.Arrives pending k site.Turns ⟨m₃, pending, .running⟩ :=
      ⟨rfl, rfl, (congrArg Array.size (hcalls₃.trans hcalls₂)).trans hk, site.stop, hip, Or.inr rfl⟩
    exact ⟨_, .over (hnears.comes (hnears₃.comes (.here harrives))) hip, hframe, hstacks⟩
  | succ left ih =>
    have hi : i < n := by omega
    obtain ⟨m₂, hcounts₂, hcalls₂, hnears⟩ := hcounts.tests (h.ready hr hreaches hk)
      (h.resolve _ hreaches) (Nat.lt_trans hi hn) hn pending (P := site.Turns)
      fun j _ hj => not_turns (by omega) (Nat.ne_of_lt hj)
    rw [if_pos hi] at hcounts₂
    have hreaches₂ : m.Reaches p ⟨m₂, pending, .running⟩ := hreaches.trans hnears.leads
    have hk₂ : m₂.calls.size = k := (congrArg Array.size hcalls₂).trans hk
    have hcomes : State.Comes pending k site.Turns ⟨m₁, pending, .running⟩ ⟨m₂, pending, .running⟩ :=
      hnears.comes (.here ⟨rfl, rfl, hk₂, site.round, hcounts₂.ip, Or.inl rfl⟩)
    have hscope := (h.ready hr hreaches₂ hk₂).opensIn hcounts₂.ip hcounts₂.frame pending
    have hbegins := hrounds _ hcomes hcounts₂.ip
    obtain ⟨a, hends, hagain⟩ := hbody _ hbegins
    have hcounts₃ := h.body_counts hr hlive hreaches₂ hk₂ hcounts₂ hends hagain
    have hreaches₃ : m.Reaches p a := hreaches₂.trans hends.leads
    obtain ⟨hmode, hpending, hk₃, -⟩ := hends.arrives
    obtain ⟨m₃, rest, mode⟩ := a
    obtain rfl : mode = .running := hmode
    obtain rfl : rest = pending := hpending
    obtain ⟨m₄, hcounts₄, hcalls₄, hnears₄⟩ := hcounts₃.steps (h.ready hr hreaches₃ hk₃)
      (by omega) rest (P := site.Turns) fun j hle hj => not_turns (by unfold leave at hj; omega) (by omega)
    obtain ⟨e, hrest, hframe, hstacks⟩ := ih (i := i + 1) (by omega) (hreaches₃.trans hnears₄.leads)
      ((congrArg Array.size hcalls₄).trans hk₃) hcounts₄
      (fun b hb hround' => .next hbegins hends hagain (hnears₄.comes hb) hround')
    exact ⟨e, .round hcomes hcounts₂.ip hscope hends hagain (hrest.of_nears hnears₄), hframe, hstacks⟩

end LoopSite.Kept

end
end ScriptEngine
