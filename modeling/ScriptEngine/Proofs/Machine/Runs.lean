import ScriptEngine.Machine.Execute
import ScriptEngine.Proofs.Machine.Transitions

/-!
# Runs

A run is a sequence of transitions. What one transition keeps in order, all of them do, from the
state in which a program begins.
-/

namespace ScriptEngine

/-- The second state comes after the first one in a run. -/
inductive State.Leads (s : State) : State → Prop
  | refl : Leads s s
  | step {s' s'' : State} (h : Leads s s') (hnext : s'.advance = .next s'') : Leads s s''

/-- The state after some transitions, if the run goes on as long. -/
def State.steps : Nat → State → Option State
  | 0, s => some s
  | n + 1, s =>
    match s.advance with
    | .next s => steps n s
    | _ => none

/-- The engine with a program that is about to run. -/
def Machine.loaded (m : Machine) (p : Program) : Machine :=
  let m := m.reset p
  let m := if m.options.dump then m.tell .info fun _ => "program:\n" ++ p.listing else m
  { m with ops := (Op.ofProgram p).ops }

/-- The state in which a program begins. -/
def Machine.start (m : Machine) (p : Program) : State :=
  ⟨m.loaded p, [], .running⟩

/-- The state comes up while the engine executes the program. -/
def Machine.Reaches (m : Machine) (p : Program) (s : State) : Prop :=
  (m.start p).Leads s

/-- The height of the operand stack when the innermost call in progress was made. -/
def Machine.base (m : Machine) : Nat :=
  (m.calls.back?.map (·.depth)).getD 0

section
variable {r : Regime} {m : Machine} {p : Program} {s s' s'' : State}

namespace State.Leads

theorem trans (h : s.Leads s') (h' : s'.Leads s'') : s.Leads s'' := by
  induction h' with
  | refl => exact h
  | step _ hnext ih => exact ih.step hnext

theorem cons (hnext : s.advance = .next s') (h : s'.Leads s'') : s.Leads s'' :=
  (Leads.refl.step hnext).trans h

theorem of_steps {n : Nat} (h : s.steps n = some s') : s.Leads s' := by
  induction n generalizing s with
  | zero =>
    cases h
    exact .refl
  | succ n ih =>
    unfold State.steps at h
    split at h
    · rename_i t hnext
      exact .cons hnext (ih h)
    · cases h

/-- Where a run ends, the transition of its last state ends. -/
theorem of_run {fuel : Nat} {a : Advance} (h : State.run fuel s = some a) :
    ∃ s', s.Leads s' ∧ s'.advance = a ∧ ∀ t, a ≠ .next t := by
  induction fuel generalizing s with
  | zero => cases h
  | succ fuel ih =>
    unfold State.run at h
    cases hnext : s.advance with
    | next s' =>
      rw [hnext] at h
      obtain ⟨s'', hleads, hlast⟩ := ih h
      exact ⟨s'', .cons hnext hleads, hlast⟩
    | finished o m =>
      rw [hnext] at h
      cases h
      exact ⟨s, .refl, hnext, fun t ht => by cases ht⟩
    | crashed message m =>
      rw [hnext] at h
      cases h
      exact ⟨s, .refl, hnext, fun t ht => by cases ht⟩

end State.Leads

/-- A run without a floor stays in order. -/
theorem State.Leads.inOrder (hr : r.Valid) (hfloor : r.floor = none) (hs : InOrder r s)
    (h : s.Leads s') : InOrder r s' := by
  induction h with
  | refl => exact hs
  | @step s' s'' _ hnext ih =>
    have hadvance := advance_inOrder hr ih (Regime.not_leaves hfloor _)
    rw [hnext] at hadvance
    exact hadvance

/-!
# The beginning of a program
-/

theorem Machine.loaded_eq (m : Machine) (p : Program) :
    ∃ j, m.loaded p =
      { (m.withStore (m.world.store.newRoot m.options.rootName).2).withJournal j with
        program := some p
        ops := (Op.ofProgram p).ops
        ip := 0
        stack := m.stack.cut 0
        frame := some (m.world.store.newRoot m.options.rootName).1
        root := some (m.world.store.newRoot m.options.rootName).1
        captured := #[]
        calls := #[]
        natives := #[] } := by
  unfold Machine.loaded
  dsimp only
  split
  · obtain ⟨j, hj⟩ := (m.reset p).tell_eq .info fun _ => "program:\n" ++ p.listing
    exact ⟨j, by rw [hj]; rfl⟩
  · exact ⟨m.world.journal, rfl⟩

/-- A program begins in order on an engine without functions of other programs. -/
theorem Machine.start_inOrder (hr : r.Valid) (hfloor : r.floor = none) (hp : r.program = p)
    (hops : (Op.ofProgram p).ops = r.ops) (hlibrary : m.library = r.library)
    (hfresh : m.world.store.closures = #[]) (hclean : r.tidy → m.world.store.Neat r.strict r.known)
    (hbindings : r.tidy → m.library.bindings.All (m.world.store.Admits r.known)) :
    InOrder r (m.start p) := by
  obtain ⟨j, hj⟩ := m.loaded_eq p
  have hframe := Store.newFrame_frame? m.world.store
    ⟨Table.empty, none, .boundary m.options.rootName none none Text.empty⟩
  unfold Machine.start
  rw [hj]
  refine .running (i := 0) (g := ⟨[], #[], #[], #[]⟩)
    (b := (m.world.store.newRoot m.options.rootName).1) ?_ (.top hfloor hframe rfl) ?_ rfl
    (Nat.zero_le _)
  · refine ⟨OperandStack.backed_cut_zero, by rw [hp], hops, hlibrary, ?_, ?_, hbindings⟩
    · intro c cl hc
      have hc : m.world.store.closures[c]? = some cl := hc
      rw [hfresh] at hc
      cases hc
    · exact fun ht => (hclean ht).newFrame Table.All.empty
  · rw [hr.fit.start]
    exact ⟨⟨[], rfl, trivial⟩, ⟨_, rfl, .here hframe rfl⟩, rfl, rfl, rfl, rfl, rfl⟩

/-!
# Heights
-/

/-- What an activation stands on ends where its call was made. -/
theorem Stands.base (hfloor : r.floor = none) {st : Store} {pending : List Pending} {g : Ground}
    {b : FrameId} {inCall : Bool} (h : Stands r st pending (.active g b inCall)) :
    (g.calls.back?.map (·.depth)).getD 0 = g.stack.length := by
  cases h with
  | floor h => exact absurd h (Regime.floor_ne hfloor _)
  | top => rfl
  | @called _ _ _ _ _ _ q =>
    show (((q.calls.push _).back?).map _).getD 0 = _
    rw [Array.back?_push]
    rfl
  | @nested _ _ q =>
    show (((q.calls.push _).back?).map _).getD 0 = _
    rw [Array.back?_push]
    rfl

/-- The calls that a level of a run knows of, and the height of its stack. -/
def Footing.Deep : Footing → Prop
  | .active g _ _ => ∀ record ∈ g.calls, record.depth ≤ g.stack.length
  | .waiting q => ∀ record ∈ q.calls, record.depth ≤ q.stack.length

/-- No call in progress was made above the stack. -/
theorem Stands.deep (hfloor : r.floor = none) {st : Store} {pending : List Pending} {footing : Footing}
    (h : Stands r st pending footing) : footing.Deep := by
  have hground : ∀ {q : Posture} {around : Option FrameId} {reentry : Bool},
      (∀ record ∈ q.calls, record.depth ≤ q.stack.length) →
      ∀ record ∈ (q.ground around reentry).calls, record.depth ≤ q.stack.length := by
    intro q around reentry hq record hrecord
    rcases Array.mem_push.mp hrecord with hrecord | rfl
    · exact hq record hrecord
    · exact Nat.le_refl _
  have hposture : ∀ {g : Ground} {b : FrameId} {inCall : Bool} {a : Layout} {q : Posture},
      Poised r st g b inCall a q → (∀ record ∈ g.calls, record.depth ≤ g.stack.length) →
      ∀ record ∈ q.calls, record.depth ≤ q.stack.length := by
    intro g b inCall a q hq hg record hrecord
    rw [hq.calls] at hrecord
    exact Nat.le_trans (hg record hrecord) hq.on.stack.length_le
  induction h with
  | floor h =>
    rw [hfloor] at h
    cases h
  | top => exact fun record hrecord => absurd hrecord (Array.not_mem_empty record)
  | called _ hq _ _ _ _ ih => exact hground (hposture hq ih)
  | nested _ _ ih => exact hground ih
  | instruction _ hq _ _ _ ih => exact hposture hq ih
  | construct _ ih => exact ih
  | convert _ ih => exact ih
  | native _ _ _ _ ih => exact ih

/-- In a state in order the stack never is below a call in progress. -/
theorem InOrder.deep (hfloor : r.floor = none) (h : InOrder r s) :
    ∀ record ∈ s.machine.calls, record.depth ≤ s.machine.stack.height := by
  have hon : ∀ {m : Machine} {g : Ground}, m.stack.Backed → m.posture.On g →
      (∀ record ∈ g.calls, record.depth ≤ g.stack.length) →
      ∀ record ∈ m.calls, record.depth ≤ m.stack.height := by
    intro m g hbacked hq hg record hrecord
    rw [show m.calls = g.calls from hq.calls] at hrecord
    rw [← OperandStack.length_items hbacked]
    exact Nat.le_trans (hg record hrecord) hq.stack.length_le
  have hwaiting : ∀ {m : Machine}, m.stack.Backed →
      (∀ record ∈ m.posture.calls, record.depth ≤ m.posture.stack.length) →
      ∀ record ∈ m.calls, record.depth ≤ m.stack.height := by
    intro m hbacked hq record hrecord
    rw [← OperandStack.length_items hbacked]
    exact hq record hrecord
  cases h with
  | running hm hs hq => exact hon hm.backed hq.on (hs.deep hfloor)
  | invoking hm hs => exact hwaiting hm.backed (hs.deep hfloor)
  | settled hm hs => exact hwaiting hm.backed (hs.deep hfloor)
  | returned hm hs hq =>
    refine hwaiting hm.backed ?_
    rw [hq]
    exact hs.deep hfloor
  | ended hm _ hq =>
    exact hon hm.backed hq fun record hrecord => absurd hrecord (Array.not_mem_empty record)
  | broken hm hs hq => exact hon hm.backed hq (hs.deep hfloor)

/-- Executing a program is running it from its beginning. -/
theorem Machine.execute_eq {ops : Array Op} (hops : Op.ofProgram p = ⟨ops, none⟩) (fuel : Nat) :
    m.execute fuel p =
      match State.run fuel (m.start p) with
      | none | some (.next _) => none
      | some (.finished (.ok v) m) => some (m.endWell v)
      | some (.finished (.error f) m) => some (m.endFaulty f)
      | some (.crashed message m) => some (m.endCrashed message) := by
  unfold Machine.execute Machine.start Machine.loaded
  generalize Op.ofProgram p = decoded at hops ⊢
  subst hops
  rfl

/-- How an execution ended, by its last transition. -/
theorem Machine.execute_last {ops : Array Op} (hops : Op.ofProgram p = ⟨ops, none⟩) {fuel : Nat}
    {result : Ending × Machine} (h : m.execute fuel p = some result) :
    ∃ s, m.Reaches p s ∧
      ((∃ v m', s.advance = .finished (.ok v) m' ∧ result = m'.endWell v) ∨
        (∃ f m', s.advance = .finished (.error f) m' ∧ result = m'.endFaulty f) ∨
        ∃ message m', s.advance = .crashed message m' ∧ result = m'.endCrashed message) := by
  rw [Machine.execute_eq hops] at h
  cases hrun : State.run fuel (m.start p) with
  | none =>
    rw [hrun] at h
    cases h
  | some a =>
    rw [hrun] at h
    obtain ⟨s, hleads, hlast, -⟩ := State.Leads.of_run hrun
    refine ⟨s, hleads, ?_⟩
    cases a with
    | next t => cases h
    | finished o m' =>
      cases o with
      | ok v => exact Or.inl ⟨v, m', hlast, (Option.some.inj h).symm⟩
      | error f => exact Or.inr (Or.inl ⟨f, m', hlast, (Option.some.inj h).symm⟩)
    | crashed message m' => exact Or.inr (Or.inr ⟨message, m', hlast, (Option.some.inj h).symm⟩)

end
end ScriptEngine
