import ScriptEngine.Proofs.Execution.Reentry
import ScriptEngine.Proofs.Machine.Calls
import ScriptEngine.Proofs.Machine.Twins

/-!
# The two ways to call a closure

An instruction enters a closure in the run that goes on, and the return pushes the value. Work that
waits has the closure run to its end, and the value is handed over. Both come to the same: the runs
go side by side from the entry to where the call is over.
-/

namespace ScriptEngine

/-- The engine without what only traces show. -/
def Machine.untraced (m : Machine) : Machine :=
  { m with world := m.world.untraced }

/-- What transitions come to: the first state that is over, or a crash. -/
inductive Advance.Comes (stop : State → Prop) : Advance → Advance → Prop
  | arrived {s : State} (h : stop s) : Comes stop (.next s) (.next s)
  | onward {s : State} {e : Advance} (hopen : ¬ stop s) (h : Comes stop s.advance e) :
    Comes stop (.next s) e
  | crashed {message : Text} {m : Machine} : Comes stop (.crashed message m) (.crashed message m)

namespace Advance.Comes

variable {stop : State → Prop} {x e e' : Advance}

theorem step {s : State} (hopen : ¬ stop s) (hadvance : s.advance = x) (h : Comes stop x e) :
    Comes stop (.next s) e :=
  .onward hopen (hadvance.symm ▸ h)

theorem unique (h : Comes stop x e) (h' : Comes stop x e') : e = e' := by
  induction h with
  | arrived h =>
    cases h' with
    | arrived => rfl
    | onward hopen => exact absurd h hopen
  | onward hopen _ ih =>
    cases h' with
    | arrived h => exact absurd h hopen
    | onward _ h' => exact ih h'
  | crashed =>
    cases h'
    rfl

end Advance.Comes

/-- A call came to the same, made by an instruction in front of `P` and on behalf of the work on `Q`.
The snapshot is that of the engine at the call. -/
inductive Advance.Agree (sn : Snapshot) (P Q : List Pending) : Advance → Advance → Prop
  /-- The engines differ in that the instruction has pushed the value, and is done. -/
  | returned {a b : Machine} {v : Value}
    (h : a.untraced = Machine.untraced { b with stack := b.stack.push v, ip := b.ip + 1 }) :
    Agree sn P Q (.next ⟨a, P, .running⟩) (.next ⟨b, Q, .delivering (.ok v)⟩)
  /-- The call failed at the same instruction; a fault that was not located in it is one of the
  instruction that makes the call. Taken back to the call, the engines are the same. -/
  | failed {a b : Machine} {f f' : Fault} (hip : a.ip = b.ip) (hfailure : f.failure = f'.failure)
    (hmessage : f.message = f'.message)
    (hplace : ((b.restore sn).locate f).untraced = ((b.restore sn).locate f').untraced)
    (h : (a.restore sn).untraced = (b.restore sn).untraced) :
    Agree sn P Q (.next ⟨a, P, .delivering (.error f)⟩)
      (.next ⟨b.restore sn, Q, .delivering (.error f')⟩)
  | crashed {message : Text} {a b : Machine} :
    Agree sn P Q (.crashed message a) (.crashed message b)

section
variable {k : Nat} {P Q l l' : List Pending} {st : Store} {r : Regime} {q : Posture} {s t : State}

/-!
# Inside the call
-/

theorem Pending.Beside.length_le (h : Beside k P Q l l') :
    P.length ≤ l.length ∧ Q.length ≤ l'.length := by
  induction h with
  | floor => exact ⟨Nat.le_refl _, Nat.le_refl _⟩
  | cons _ _ ih => exact ⟨Nat.le_succ_of_le ih.1, Nat.le_succ_of_le ih.2⟩

/-- Both runs are back at the work that waited when the call began, or none is. -/
theorem Pending.Beside.eq_iff (h : Beside k P Q l l') : l = P ↔ l' = Q := by
  cases h with
  | floor => exact ⟨fun _ => rfl, fun _ => rfl⟩
  | cons _ hl =>
    obtain ⟨hP, hQ⟩ := hl.length_le
    constructor
    · rintro rfl
      exact absurd hP (Nat.not_le_of_lt (Nat.lt_succ_self _))
    · rintro rfl
      exact absurd hQ (Nat.not_le_of_lt (Nat.lt_succ_self _))

theorem Pending.Beside.cons_right {x y : Pending} (h : Beside k P (y :: Q) l (x :: l')) :
    (x = y ∧ l' = Q) ∨ ∃ z, Pending.Alike k z x := by
  cases h with
  | floor => exact Or.inl ⟨rfl, rfl⟩
  | cons hx => exact Or.inr ⟨_, hx⟩

/-- Activations inside the call have more calls in progress than there were at the call, and the one
with the fewest is the call itself. -/
theorem Stands.above (hfloor : r.floor = some (Q, .waiting q))
    (hl : Pending.Beside q.calls.size P (.nested q.snapshot :: Q) l l') {g : Ground} {b : FrameId}
    {inCall : Bool} (h : Stands r st l' (.active g b inCall)) :
    q.calls.size < g.calls.size ∧ (g.calls.size = q.calls.size + 1 →
      l' = .nested q.snapshot :: Q ∧ ∃ around, g = q.ground around true) := by
  generalize hfooting : Footing.active g b inCall = footing at h
  induction h generalizing g b inCall with
  | floor h =>
    rw [hfloor] at h
    cases h
    cases hfooting
  | top h =>
    rw [hfloor] at h
    cases h
  | @called _ g₀ _ _ _ _ p _ around _ hp _ _ _ _ ih =>
    cases hfooting
    have hdeep := (ih hl rfl).1
    have hsize : (p.ground around false).calls.size = g₀.calls.size + 1 := by
      rw [← hp.calls]
      exact Array.size_push ..
    exact ⟨by omega, fun heq => by omega⟩
  | @nested rest _ p around h _ _ =>
    cases hfooting
    have hsize : (p.ground around true).calls.size = p.calls.size + 1 := Array.size_push ..
    rcases hl.cons_right with ⟨hsn, rfl⟩ | ⟨x, hx⟩
    · obtain rfl : p = q := (h.onFloor hfloor).2 rfl
      exact ⟨by omega, fun _ => ⟨rfl, around, rfl⟩⟩
    · cases hx with
      | nested hsn =>
        have hsn : q.calls.size < p.calls.size := hsn
        exact ⟨by omega, fun heq => by omega⟩
  | instruction => cases hfooting
  | construct => cases hfooting
  | convert => cases hfooting
  | native => cases hfooting

/-- Nothing else waits in the place of the run of the call. -/
theorem Stands.not_waiting {p : Posture} (hfloor : r.floor = some (Q, .waiting q)) :
    ¬ Stands r st (.nested q.snapshot :: Q) (.waiting p) := by
  intro h
  generalize hpending : Pending.nested q.snapshot :: Q = pending at h
  cases h with
  | floor h =>
    rw [hfloor] at h
    cases h
    exact List.cons_ne_self _ _ hpending
  | instruction | construct | convert | native => cases hpending

/-- Twin runs inside a call that was made in the posture `q`, the second one in order. -/
structure Abreast (r : Regime) (q : Posture) (P Q : List Pending) (s t : State) : Prop where
  floor : r.floor = some (Q, .waiting q)
  twin : s.Twin q.calls.size P (.nested q.snapshot :: Q) t
  order : InOrder r t

namespace Abreast

theorem not_over (h : Abreast r q P Q s t) : ¬ t.Over Q q.calls.size := by
  rintro ⟨hpending, -⟩
  have hle := h.twin.pending.length_le.2
  rw [hpending] at hle
  exact absurd hle (Nat.not_le_of_lt (Nat.lt_succ_self _))

/-- Where the first run is over, the call has failed in both of them. -/
theorem failed (h : Abreast r q P Q s t) (hover : s.Over P q.calls.size) :
    ∃ (a b : Machine) (f f' : Fault), a.Twin q.calls.size b ∧ f.untraced = f'.untraced ∧
      s = ⟨a, P, .delivering (.error f)⟩ ∧
      t.advance = .next ⟨b.restore q.snapshot, Q, .delivering (.error f')⟩ := by
  obtain ⟨a, l, mode⟩ := s
  obtain ⟨b, l', mode'⟩ := t
  obtain ⟨hfloor, ⟨hm, hl, hmode⟩, horder⟩ := h
  obtain ⟨rfl, hcalls⟩ : l = P ∧ _ := hover
  have hpending : l' = .nested q.snapshot :: Q := hl.eq_iff.mp rfl
  have hcovers : b.covers q.snapshot = true := (horder.over hfloor).covers horder.sane.backed
  have hdeep : q.calls.size < b.calls.size := hm.deep
  dsimp only at hm hmode hcalls
  cases horder with
  | running =>
    cases hmode
    have hle := hcalls rfl
    rw [hm.calls, size_directAt] at hle
    exact absurd hle (Nat.not_le_of_lt hdeep)
  | invoking _ hs =>
    subst hpending
    exact absurd hs (Stands.not_waiting hfloor)
  | settled _ hs =>
    subst hpending
    exact absurd hs (Stands.not_waiting hfloor)
  | @returned _ _ p v _ hs hp =>
    -- the posture of the call has no more calls in progress than there were
    have hsn : p.snapshot = q.snapshot := Pending.nested.inj (List.cons.inj hpending).1
    have hsize : b.calls.size = q.calls.size :=
      (congrArg (fun q => q.calls.size) hp).trans (congrArg Snapshot.calls hsn)
    omega
  | ended _ h =>
    rw [hfloor] at h
    cases h
  | @broken _ _ _ _ _ f' =>
    subst hpending
    cases hmode with
    | @delivering o _ ho =>
      cases o with
      | ok => cases ho
      | error f =>
        refine ⟨a, b, f, f', hm, Except.error.inj ho, rfl, ?_⟩
        show (if b.covers q.snapshot then _ else _) = _
        rw [if_pos hcovers]
        rfl

/-- Transitions that do the same lead on abreast, or both crash. -/
theorem onward (hr : r.Valid) (h : Abreast r q P Q s t)
    (htwin : Advance.Twin q.calls.size P (.nested q.snapshot :: Q) s.advance t.advance) :
    (∃ s' t', s.advance = .next s' ∧ t.advance = .next t' ∧ Abreast r q P Q s' t') ∨
      ∃ message a b, s.advance = .crashed message a ∧ t.advance = .crashed message b := by
  have horder : Advance.InOrder r t.advance := by
    refine advance_inOrder hr h.order (Regime.not_leaves_waiting h.floor fun o ho hpending => ?_)
    refine h.not_over ⟨hpending, fun hmode => ?_⟩
    rw [ho] at hmode
    cases hmode
  generalize s.advance = x at htwin
  generalize t.advance = y at htwin horder
  cases x with
  | next s' =>
    cases y with
    | next t' => exact Or.inl ⟨s', t', rfl, rfl, h.floor, htwin, horder⟩
    | finished | crashed => exact htwin.elim
  | finished => exact htwin.elim
  | crashed message a =>
    cases y with
    | crashed message' b =>
      cases htwin
      exact Or.inr ⟨message, a, b, rfl, rfl⟩
    | finished | next => exact htwin.elim

/-- At a return from the call itself, both runs return from it, with one value. -/
theorem returns {a b : Machine} (h : Abreast r q P Q ⟨a, l, .running⟩ ⟨b, l', .running⟩)
    (hop : b.ops[b.ip.toNat]? = some .ret) (hsize : b.calls.size = q.calls.size + 1) :
    Advance.Twin q.calls.size P (.nested q.snapshot :: Q) (State.execute a l) (State.execute b l') ∨
    ∃ (v : Value) (a' b' : Machine), a'.view id = b'.view id ∧ b'.calls.size = q.calls.size ∧
      State.execute a l = .next ⟨{ a' with stack := a'.stack.push v, ip := q.ip + 1 }, P, .running⟩ ∧
      State.execute b l' = .next ⟨b', .nested q.snapshot :: Q, .delivering (.ok v)⟩ := by
  obtain ⟨hfloor, ⟨hm, hl, -⟩, horder⟩ := h
  cases horder with
  | @running _ _ g _ _ _ _ hs hq =>
    have hcalls : b.calls = g.calls := hq.calls
    obtain ⟨rfl, around, rfl⟩ := (hs.above hfloor hl).2 (hcalls ▸ hsize)
    obtain rfl : l = P := hl.eq_iff.mpr rfl
    have hback : b.calls.back? = some ⟨q.ip, q.stack.length, true⟩ := by
      rw [hcalls]
      exact Array.back?_push
    exact twin_execute_return hm hl hop hsize hback rfl

/-- Taken back to the call, twin engines differ only in what traces show. -/
theorem restore_untraced {a b : Machine} (h : a.Twin q.calls.size b) :
    (a.restore q.snapshot).untraced = (b.restore q.snapshot).untraced := by
  have hcalls : a.calls.shrink q.calls.size = b.calls.shrink q.calls.size := by
    rw [h.calls, ← directAt_shrink, directAt_of_le]
    rw [Array.size_shrink]
    exact Nat.min_le_left _ _
  have hsame : ∀ m : Machine, (m.restore q.snapshot).untraced =
      { (m.view id).restore q.snapshot with calls := m.calls.shrink q.calls.size } := fun _ => rfl
  rw [hsame, hsame, hcalls, h.same]
  rfl

theorem agree_failed {a b : Machine} {f f' : Fault} (h : a.Twin q.calls.size b)
    (hf : f.untraced = f'.untraced) :
    Advance.Agree q.snapshot P Q (.next ⟨a, P, .delivering (.error f)⟩)
      (.next ⟨b.restore q.snapshot, Q, .delivering (.error f')⟩) := by
  obtain ⟨hfailure, hmessage, -⟩ := Fault.same_of_untraced hf
  refine .failed h.ip hfailure hmessage ?_ (restore_untraced h)
  obtain rfl | ⟨failure, message, problems, trace, trace', rfl, rfl⟩ := Fault.untraced_cases hf
  · rfl
  · rfl

/-- Both runs go on abreast, or the call ends in both of them. -/
theorem step (hr : r.Valid) (hnatives : r.library.Oblivious) (h : Abreast r q P Q s t) :
    (¬ s.Over P q.calls.size ∧
      ∃ s' t', s.advance = .next s' ∧ t.advance = .next t' ∧ Abreast r q P Q s' t') ∨
    ∃ e e', Advance.Comes (State.Over P q.calls.size) (.next s) e ∧
      Advance.Comes (State.Over Q q.calls.size) (.next t) e' ∧ Advance.Agree q.snapshot P Q e e' := by
  by_cases hover : s.Over P q.calls.size
  · obtain ⟨a, b, f, f', hm, hf, rfl, hnext⟩ := h.failed hover
    refine Or.inr ⟨_, _, .arrived hover, .step h.not_over hnext (.arrived ?_), agree_failed hm hf⟩
    exact ⟨rfl, fun hmode => by cases hmode⟩
  have hboth := fun htwin => (h.onward hr htwin).imp (And.intro hover)
    fun ⟨message, a, b, hs, ht⟩ =>
      show ∃ e e', Advance.Comes (State.Over P q.calls.size) (.next s) e ∧
          Advance.Comes (State.Over Q q.calls.size) (.next t) e' ∧ Advance.Agree q.snapshot P Q e e' from
        ⟨_, _, .step hover hs .crashed, .step h.not_over ht .crashed, .crashed⟩
  by_cases hret : t.mode = .running ∧ t.machine.ops[t.machine.ip.toNat]? = some .ret ∧
      t.machine.calls.size = q.calls.size + 1
  · obtain ⟨a, l, mode⟩ := s
    obtain ⟨b, l', mode'⟩ := t
    obtain ⟨rfl, hop, hsize⟩ := hret
    have hmode := h.twin.mode
    cases hmode
    rcases h.returns hop hsize with htwin | ⟨v, a', b', hview, hsize', hs, ht⟩
    · exact hboth htwin
    · have hcalls : (a'.view id).calls = (b'.view id).calls := congrArg Machine.calls hview
      have hopen : ¬ State.Over Q q.calls.size ⟨b', .nested q.snapshot :: Q, .delivering (.ok v)⟩ :=
        fun h => List.cons_ne_self _ _ h.1
      refine Or.inr ⟨_, _, .step hover hs (.arrived ⟨rfl, fun _ => ?_⟩),
        .step h.not_over ht (.step hopen rfl (.arrived ⟨rfl, fun hmode => by cases hmode⟩)),
        .returned ?_⟩
      · exact Nat.le_of_eq ((congrArg Array.size hcalls).trans hsize')
      · exact congrArg (fun m : Machine => { m with stack := m.stack.push v, ip := q.ip + 1 }) hview
  · refine hboth (h.twin.advance (h.order.sane.table ▸ hnatives)
      (fun hmode hop hsize => hret ⟨hmode, hop, hsize⟩) ?_)
    intro o ho hpending
    refine hover ⟨h.twin.pending.eq_iff.mpr hpending, fun hmode => ?_⟩
    have halike := h.twin.mode
    rw [hmode, ho] at halike
    cases halike

/-!
# To the end of the call
-/

/-- What the first run comes to, the second one does. -/
theorem comes (hr : r.Valid) (hnatives : r.library.Oblivious) (h : Abreast r q P Q s t) {e : Advance}
    (hcomes : Advance.Comes (State.Over P q.calls.size) (.next s) e) :
    ∃ e', Advance.Comes (State.Over Q q.calls.size) (.next t) e' ∧
      Advance.Agree q.snapshot P Q e e' := by
  generalize hs : Advance.next s = x at hcomes
  induction hcomes generalizing s t with
  | arrived hover =>
    cases hs
    rcases h.step hr hnatives with ⟨hopen, -⟩ | ⟨e, e', he, he', hagree⟩
    · exact absurd hover hopen
    · cases he.unique (.arrived hover)
      exact ⟨e', he', hagree⟩
  | @onward s e hopen hcomes ih =>
    cases hs
    rcases h.step hr hnatives with ⟨-, s', t', hs', ht', h'⟩ | ⟨e₁, e', he, he', hagree⟩
    · obtain ⟨e', he', hagree⟩ := ih h' hs'.symm
      exact ⟨e', .onward h.not_over (ht' ▸ he'), hagree⟩
    · cases he.unique (.onward hopen hcomes)
      exact ⟨e', he', hagree⟩
  | crashed => cases hs

end Abreast
end

section
variable {r : Regime} {m : Machine} {P Q : List Pending} {i : ClosureId} {cl : Closure}
  {args : List Value}

/-- Whatever is called in an engine that is at work, the run is in order above the posture of that
moment. -/
theorem Sane.invoking {m₀ : Machine} (hm : Sane r m₀) (hr : r.Valid) (hrough : ¬ r.tidy)
    (hworks : m₀.Works (fun _ => False) m) (hbacked : m.stack.Backed) (Q : List Pending)
    (callee : Value) (args : List Value) :
    ∃ r' : Regime, r'.Valid ∧ r'.floor = some (Q, .waiting m.posture) ∧ r'.library = r.library ∧
      InOrder r' ⟨m, Q, .invoking callee args⟩ := by
  refine ⟨{ r with floor := some (Q, .waiting m.posture) },
    ⟨hr.fit, hr.size, hr.limit, hr.calls, hr.proper⟩, rfl, rfl, ?_⟩
  refine .invoking ?_ (.floor rfl) (fun ht => absurd ht hrough) fun _ _ ht => absurd ht hrough
  refine ⟨hbacked, hworks.program.trans hm.runs, hworks.ops.trans hm.decoded,
    hworks.library.trans hm.table, ?_, fun ht => absurd ht hrough, fun ht => absurd ht hrough⟩
  intro c cl hc
  obtain ⟨c₀, cl₀, hc₀, hentry⟩ := hworks.store.entries c cl hc
  rw [← hentry]
  exact hm.entries c₀ cl₀ hc₀

end

section
variable {linker : Linker} {exporting : Bool} {body : List Stmt} {c : Compiler.Compiled}
  {m m₀ : Machine} {s : State} {i : ClosureId} {cl : Closure}

end
theorem Advance.Comes.of_steps {k n : Nat} {pending : List Pending} {s s' : State}
    (h : s.stepsAbove k n = some s') (hover : s'.Over pending k) :
    Comes (State.Over pending k) (.next s) (.next s') := by
  induction n generalizing s with
  | zero =>
    cases h
    exact .arrived hover
  | succ n ih =>
    unfold State.stepsAbove at h
    split at h
    · rename_i hruns
      split at h
      · rename_i s₁ hnext
        exact .step (State.runsAbove.not_over hruns) hnext (ih h)
      · cases h
    · cases h

end ScriptEngine
