import ScriptEngine.Proofs.Machine.BehindRuns
import ScriptEngine.Proofs.Machine.Runs

/-!
# Executions behind a past

A program begins in a frame of its own, with an empty stack and with nothing but constants in its
instructions; when its run has ended, nothing but messages is added. So an engine all of whose values
are in scope stays such an engine, and an execution behind a past is the execution without one.
-/

namespace ScriptEngine

/-!
# Constants
-/

namespace Op

namespace Operand

theorem read?_inert {i : Instruction} {o : Operand} (h : read? i = some o) : o.constant.Inert := by
  unfold read? at h
  split at h
  · obtain ⟨x, -, rfl⟩ := Option.map_eq_some_iff.mp h
    trivial
  · cases h
    trivial
  · obtain ⟨b, -, rfl⟩ := Option.map_eq_some_iff.mp h
    trivial
  · cases h
    trivial
  · obtain ⟨d, -, rfl⟩ := Option.map_eq_some_iff.mp h
    trivial
  · cases h
    trivial

theorem remnant_inert (i : Instruction) : (remnant i).constant.Inert := by
  unfold remnant
  split <;> trivial

end Operand

theorem ofOperand_push {i : Instruction} {o : Operand} (ho : o.constant.Inert) {v : Value}
    (h : ofOperand i o = .push v) : v.Inert := by
  unfold ofOperand at h
  cases hop : i.op.operation? with
  | none =>
    rw [hop] at h
    cases h
  | some op =>
    rw [hop] at h
    cases op <;> cases h <;> first | exact ho | trivial

theorem decodeAll_push {code : List Instruction} {n : Nat} {acc : Array Op}
    (hacc : ∀ op ∈ acc, ∀ v, op = .push v → v.Inert) :
    ∀ op ∈ (decodeAll code n acc).ops, ∀ v, op = .push v → v.Inert := by
  have hpush : ∀ {acc : Array Op} {i : Instruction} {o : Operand}, o.constant.Inert →
      (∀ op ∈ acc, ∀ v, op = .push v → v.Inert) →
      ∀ op ∈ acc.push (ofOperand i o), ∀ v, op = .push v → v.Inert := by
    intro acc i o ho hacc op hop v hv
    rcases Array.mem_push.mp hop with hop | rfl
    · exact hacc op hop v hv
    · exact ofOperand_push ho hv
  induction code generalizing n acc with
  | nil => exact hacc
  | cons i rest ih =>
    unfold decodeAll
    split
    · rename_i o ho
      exact ih (hpush (Operand.read?_inert ho) hacc)
    · intro op hop v hv
      rcases Array.mem_append.mp hop with hop | hop
      · exact hpush (Operand.remnant_inert i) hacc op hop v hv
      · obtain ⟨j, -, rfl⟩ := List.mem_map.mp (List.mem_toArray.mp hop)
        exact ofOperand_push (o := .unread) trivial hv

/-- What the instructions of a program push is no object. -/
theorem ofProgram_push (p : Program) : ∀ op ∈ (ofProgram p).ops, ∀ v, op = .push v → v.Inert :=
  decodeAll_push fun op h => absurd h (Array.not_mem_empty op)

end Op

/-!
# Loading a program
-/

namespace Machine

variable {law : Law} {m : Machine}

/-- A new engine, with a library whose values are in scope. -/
theorem Sound.new {w : World} (hstore : w.store.Scoped)
    (hbindings : law.library.bindings.Every w.store.Has) (options : Options) :
    (Machine.new w law.library options).Sound law where
  store := hstore
  library := rfl
  bindings := hbindings
  slots v h := absurd h (Array.not_mem_empty v)
  backed := Nat.le_refl 0
  depths record h := absurd h (Array.not_mem_empty record)
  frame _ h := by cases h
  constants op h := absurd h (Array.not_mem_empty op)

theorem changes_newRoot (law : Law) (s : Store) (name : Text) : law.Changes s (s.newRoot name).2 := by
  refine (Store.Change.frame .empty ?_ ?_ ?_).once
  · exact fun _ h => by cases h
  · exact fun _ h => by cases h
  · exact fun _ _ h => by cases h

theorem Sound.reset (hm : m.Sound law) (p : Program) : m.Onward law (m.reset p) := by
  have hchanges := changes_newRoot law m.world.store m.options.rootName
  have hstore := hm.withStore hchanges
  refine ⟨⟨hstore.store, hstore.library, hstore.bindings, hstore.slots, Nat.zero_le _, ?_, ?_, ?_⟩, hchanges⟩
  · exact fun record h => absurd h (Array.not_mem_empty record)
  · intro g hg
    cases hg
    show m.world.store.frames.size < (m.world.store.frames.push _).size
    rw [Array.size_push]
    exact Nat.lt_succ_self _
  · exact fun op h => absurd h (Array.not_mem_empty op)

theorem Sound.loaded (hm : m.Sound law) (p : Program) : m.Onward law (m.loaded p) := by
  obtain ⟨hsound, hchanges⟩ := hm.reset p
  unfold Machine.loaded
  dsimp only
  split
  · refine ⟨{ hsound.tell _ _ with constants := Op.ofProgram_push p }, ?_⟩
    show law.Changes _ ((m.reset p).tell _ _).world.store
    rw [store_tell]
    exact hchanges
  · exact ⟨{ hsound with constants := Op.ofProgram_push p }, hchanges⟩

theorem reset_shift (past : Past) (m : Machine) (p : Program) :
    (m.shift past).reset p = (m.reset p).shift past := by
  have hroot := Store.newFrame_shift past.store m.world.store
    ⟨Table.empty, none, .boundary m.options.rootName none none Text.empty⟩
  have hcaptured : (m.reset p).captured.map (shiftFrame past.store) = #[] := Array.map_empty
  conv => rhs; unfold shift
  rw [hcaptured]
  exact congrArg (fun root : FrameId × Store => ({ m.shift past with
    world := { m.world.shift past with store := root.2 }, program := some p, ops := #[], ip := 0,
    stack := (m.stack.shift past).cut 0, frame := some root.1, root := some root.1, captured := #[],
    calls := #[], natives := #[] } : Machine)) hroot

theorem loaded_shift (past : Past) (m : Machine) (p : Program) :
    (m.shift past).loaded p = (m.loaded p).shift past := by
  have hdump : (if ((m.shift past).reset p).options.dump then
        ((m.shift past).reset p).tell .info fun _ => "program:\n" ++ p.listing
      else (m.shift past).reset p) =
      (if (m.reset p).options.dump then (m.reset p).tell .info fun _ => "program:\n" ++ p.listing
        else m.reset p).shift past := by
    rw [reset_shift]
    show (if (m.reset p).options.dump then _ else _) = _
    split
    · exact tell_shift .info rfl
    · rfl
  exact congrArg (fun m' : Machine => { m' with ops := (Op.ofProgram p).ops }) hdump

end Machine

/-!
# Ending a run
-/

/-- How an execution ends if its run ends so. -/
def Advance.ending : Advance → Option (Ending × Machine)
  | .next _ => none
  | .finished (.ok v) m => some (m.endWell v)
  | .finished (.error f) m => some (m.endFaulty f)
  | .crashed message m => some (m.endCrashed message)

/-- The ending with its value shifted. -/
def Ending.shift (p : Store) : Ending → Ending
  | .value v => .value (v.shift p)
  | .failed problems trace => .failed problems trace

/-- The value of an ending is in scope. -/
def Store.HasEnding (s : Store) : Ending → Prop
  | .value v => s.Has v
  | .failed _ _ => True

namespace Machine

variable {law : Law} {m m' : Machine} {past : Past} {p : Program} {fuel : Nat} {e : Ending}

theorem execute_ending (fuel : Nat) (m : Machine) (p : Program) :
    m.execute fuel p = match (Op.ofProgram p).flaw with
      | some (i, instruction) =>
        some ({ m.loaded p with ip := i }.endFaulty (.raised .internal (malformed instruction)))
      | none => (State.run fuel (m.start p)).bind Advance.ending := by
  unfold execute
  dsimp only
  cases (Op.ofProgram p).flaw with
  | some flaw => rfl
  | none =>
    show _ = (State.run fuel ⟨m.loaded p, [], .running⟩).bind Advance.ending
    unfold loaded
    dsimp only
    generalize State.run fuel _ = a
    rcases a with _ | _ | ⟨_ | _, _⟩ | _ <;> rfl

/-- What is told about the problems of a run. -/
theorem endFaulty_eq (m : Machine) (f : Fault) :
    m.endFaulty f = (.failed (m.locate f).problems (m.locate f).trace,
      (m.locate f).problems.toList.foldl
        (fun m p => m.tell .debug fun _ => "runtime problem: " ++ p.text) m) := by
  unfold endFaulty
  dsimp only
  rw [← Array.foldl_toList]

theorem Sound.tellAll (hm : m.Sound law) (problems : List Problem) :
    m.Onward law
      (problems.foldl (fun m p => m.tell .debug fun _ => "runtime problem: " ++ p.text) m) := by
  induction problems generalizing m with
  | nil => exact hm.onward
  | cons problem rest ih =>
    refine Onward.trans ⟨hm.tell _ _, ?_⟩ (ih (hm.tell _ _))
    rw [store_tell]
    exact .refl

theorem tellAll_shift (problems : List Problem) :
    problems.foldl (fun m p => m.tell .debug fun _ => "runtime problem: " ++ p.text) (m.shift past) =
      (problems.foldl (fun m p => m.tell .debug fun _ => "runtime problem: " ++ p.text) m).shift past := by
  induction problems generalizing m with
  | nil => rfl
  | cons problem rest ih =>
    rw [List.foldl_cons, List.foldl_cons, tell_shift .debug rfl, ih]

theorem endFaulty_shift (hs : m.world.store.Scoped) (hframe : m.world.store.HasFrame m.frame)
    (f : Fault) : (m.shift past).endFaulty f =
      ((m.endFaulty f).1.shift past.store, (m.endFaulty f).2.shift past) := by
  rw [endFaulty_eq, endFaulty_eq, locate_shift hs hframe, tellAll_shift]
  rfl

theorem endWell_shift (hs : m.world.store.Scoped) {v : Value} (hv : m.world.store.Has v) :
    (m.shift past).endWell (v.shift past.store) =
      ((m.endWell v).1.shift past.store, (m.endWell v).2.shift past) := by
  show (Ending.value (v.shift past.store), (m.shift past).tell .debug fun _ =>
    "run finished with " ++ (past.store.shift m.world.store).repr (v.shift past.store)) = _
  rw [Store.repr_shift hs hv, tell_shift .debug rfl]
  rfl

theorem endCrashed_shift (message : Text) :
    (m.shift past).endCrashed message =
      ((m.endCrashed message).1.shift past.store, (m.endCrashed message).2.shift past) := by
  unfold endCrashed
  rw [tell_shift .error rfl]
  rfl

end Machine

namespace Advance

variable {law : Law} {a a' : Advance} {s : Store} {e : Ending} {m : Machine}

/-- What a run ends with is in scope. -/
theorem Sound.ending (ha : a.Sound law s) (h : a.ending = some (e, m)) :
    m.Sound law ∧ law.Changes s m.world.store ∧ m.world.store.HasEnding e := by
  cases a with
  | next s' => cases h
  | finished o m₁ =>
    cases o with
    | ok v =>
      cases h
      refine ⟨ha.1.tell _ _, ?_⟩
      rw [Machine.store_tell]
      exact ha.2
    | error f =>
      have hend : m₁.endFaulty f = (e, m) := Option.some.inj h
      rw [Machine.endFaulty_eq] at hend
      cases hend
      have hon := ha.1.tellAll (m₁.locate f).problems.toList
      exact ⟨hon.sound, ha.2.1.trans hon.store, trivial⟩
  | crashed message m₁ =>
    cases h
    refine ⟨ha.1.tell _ _, ?_⟩
    rw [Machine.store_tell]
    exact ⟨ha.2, trivial⟩

/-- A run behind the past ends as the run without one. -/
theorem Shifts.ending (h : a.Shifts law.past a') (ha : a.Sound law s) :
    a'.ending = a.ending.map fun r => (r.1.shift law.past.store, r.2.shift law.past) := by
  cases h with
  | next => rfl
  | @finished o m =>
    cases o with
    | ok v => exact congrArg some (Machine.endWell_shift ha.1.store ha.2.2)
    | error f => exact congrArg some (Machine.endFaulty_shift ha.1.store ha.1.frame f)
  | crashed => exact congrArg some (Machine.endCrashed_shift _)

end Advance

namespace Machine

variable {law : Law} {m m' : Machine} {e : Ending}

/-- What an execution leaves is in scope, and an execution behind the past is the one without. -/
theorem Sound.execute (hm : m.Sound law) (ht : law.twin) (hlent : ∀ f name v, law.lent f name v)
    (fuel : Nat) (p : Program) :
    (m.shift law.past).execute fuel p =
        (m.execute fuel p).map (fun r => (r.1.shift law.past.store, r.2.shift law.past)) ∧
      ∀ e m', m.execute fuel p = some (e, m') → m'.Sound law ∧ m'.world.store.HasEnding e := by
  obtain ⟨hloaded, -⟩ := hm.loaded p
  rw [execute_ending, execute_ending, loaded_shift]
  cases (Op.ofProgram p).flaw with
  | some flaw =>
    have hflaw : { m.loaded p with ip := flaw.1 }.Sound law := { hloaded with }
    refine ⟨congrArg some (endFaulty_shift hflaw.store hflaw.frame _), ?_⟩
    intro e m' h
    dsimp only at h
    rw [endFaulty_eq] at h
    cases h
    exact ⟨(hflaw.tellAll _).sound, trivial⟩
  | none =>
    have hsound : (m.start p).Sound law := ⟨hloaded, fun _ h => absurd h List.not_mem_nil, trivial⟩
    have hshift : (m.start p).Shifts law.past ((m.shift law.past).start p) :=
      ⟨loaded_shift law.past m p, .nil, rfl⟩
    rcases hshift.run hsound ht hlent fuel with ⟨hrun, hrun'⟩ | ⟨a, a', hrun, hrun', ha, hends⟩
    · rw [hrun, hrun']
      exact ⟨rfl, fun e m' h => by cases h⟩
    · rw [hrun, hrun']
      refine ⟨hends.ending ha, fun e m' h => ?_⟩
      obtain ⟨hm', -, he⟩ := ha.ending h
      exact ⟨hm', he⟩

end Machine

/-!
# The life of an engine

An engine executes programs and is called from outside, one run after the other. Runs end well, fail or
crash, programs may be refused before they begin, and between two runs the host may change the world.
What every transition keeps is kept in a whole life.
-/

/-- What an engine is at: nothing, or a run. -/
inductive Life where
  | resting (m : Machine)
  | running (s : State)

namespace Life

/-- The objects that there are. -/
def store : Life → Store
  | resting m => m.world.store
  | running s => s.machine.world.store

/-- What happens next, with `host` for what the host may do to a store between two runs. -/
inductive Step (host : Store → Store → Prop) : Life → Life → Prop
  | execute {m : Machine} {p : Program} (h : (Op.ofProgram p).flaw = none) :
    Step host (.resting m) (.running (m.start p))
  | refuse {m : Machine} {p : Program} {flaw : Nat × Instruction}
    (h : (Op.ofProgram p).flaw = some flaw) :
    Step host (.resting m) (.resting { m.loaded p with ip := flaw.1 })
  | call {m : Machine} {callee : Value} {args : List Value} (hcallee : m.world.store.Has callee)
    (hargs : ∀ v ∈ args, m.world.store.Has v) :
    Step host (.resting m) (.running ⟨m, [], .invoking callee args⟩)
  | advance {s s' : State} (h : s.advance = .next s') : Step host (.running s) (.running s')
  | finish {s : State} {o : Except Fault Value} {m : Machine} (h : s.advance = .finished o m) :
    Step host (.running s) (.resting m)
  | crash {s : State} {message : Text} {m : Machine} (h : s.advance = .crashed message m) :
    Step host (.running s) (.resting m)
  | host {m : Machine} {w : World} (h : w.store = m.world.store ∨ host m.world.store w.store) :
    Step host (.resting m) (.resting { m with world := w })

/-- The second state of an engine comes after the first. -/
def Leads (host : Store → Store → Prop) : Life → Life → Prop :=
  Relation.ReflTransGen (Step host)

theorem Leads.of_leads {host : Store → Store → Prop} {s s' : State} (h : s.Leads s') :
    Leads host (.running s) (.running s') := by
  induction h with
  | refl => exact .refl
  | step _ hnext ih => exact ih.tail (.advance hnext)

/-- Everything is in scope. -/
def Sound (law : Law) : Life → Prop
  | resting m => m.Sound law
  | running s => s.Sound law

/-- The next transition binds a parameter to a value that it does not copy. -/
def Entrusts : Life → FrameId → Text → Value → Prop
  | resting _, _, _, _ => False
  | running s, f, name, v => s.Entrusts f name v

variable {law : Law} {x y : Life}

theorem Sound.step (hx : x.Sound law) (h : Step law.native x y) (halone : ¬ law.twin)
    (hlent : ∀ f name v, x.Entrusts f name v → law.lent f name v) :
    y.Sound law ∧ law.Changes x.store y.store := by
  cases h with
  | @execute m p =>
    obtain ⟨hloaded, hchanges⟩ := Machine.Sound.loaded hx p
    exact ⟨⟨hloaded, fun _ h => absurd h List.not_mem_nil, trivial⟩, hchanges⟩
  | @refuse m p flaw =>
    obtain ⟨hloaded, hchanges⟩ := Machine.Sound.loaded hx p
    exact ⟨{ hloaded with }, hchanges⟩
  | call hcallee hargs =>
    exact ⟨⟨hx, fun _ h => absurd h List.not_mem_nil, hcallee, hargs⟩, .refl⟩
  | advance h =>
    have hnext := State.Sound.advance hx halone hlent
    rw [h] at hnext
    exact hnext
  | finish h =>
    have hend := State.Sound.advance hx halone hlent
    rw [h] at hend
    exact ⟨hend.1, hend.2.1⟩
  | crash h =>
    have hend := State.Sound.advance hx halone hlent
    rw [h] at hend
    exact hend
  | @host m w h =>
    rcases h with h | h
    · have hchanges : law.Changes m.world.store w.store := h ▸ .refl
      exact ⟨{ Machine.Sound.withStore hx hchanges with }, hchanges⟩
    · have hchanges : law.Changes m.world.store w.store := Store.Change.once (.native h)
      exact ⟨{ Machine.Sound.withStore hx hchanges with }, hchanges⟩

end Life
end ScriptEngine
