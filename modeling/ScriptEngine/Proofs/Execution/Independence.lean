import ScriptEngine.Proofs.Execution.Compiled
import ScriptEngine.Proofs.Machine.Executions

/-!
# Executions do not depend on what was run before

An engine may have executed and called anything, and may have failed or crashed in the middle of it.
If its native table holds nothing that refers to objects, and its natives keep no state, a program
does in it what it does in a new engine: only the numbers of its objects differ.
-/

namespace ScriptEngine

/-- An ending as it is told to a host: the texts of the value, or the problems and the call history. -/
def Ending.told (s : Store) : Ending → Except (Array Problem × Trace) (Text × Text)
  | .value v => .ok (s.display v, s.repr v)
  | .failed problems trace => .error (problems, trace)

theorem Ending.told_shift {p s : Store} {e : Ending} (hs : s.Scoped) (he : s.HasEnding e) :
    (e.shift p).told (p.shift s) = e.told s := by
  cases e with
  | value v =>
    show Except.ok (_, _) = Except.ok (_, _)
    rw [Store.display_shift hs he, Store.repr_shift hs he]
  | failed problems trace => rfl

theorem Table.sorted_mapValues {α : Type} (f : α → α) (t : Table α) :
    (t.mapValues f).sorted = t.sorted.map fun b => (b.1, f b.2) := by
  unfold sorted mapValues
  refine (List.map_mergeSort ?_).symm
  intro a _ b _
  rfl

namespace Machine

variable {m : Machine}

/-- A new engine with the library and the options of this one, and with what its host has left. -/
def renewed (m : Machine) : Machine :=
  .new ⟨.empty, { m.world.host with output := Text.empty }, .new m.world.journal.recording⟩ m.library
    m.options

/-- The bindings of the root frame with the texts of their values. -/
def shownGlobals (m : Machine) : List (Text × Text × Text) :=
  m.globals.map fun b => (b.1, m.world.store.display b.2, m.world.store.repr b.2)

/-!
# What was run before
-/

/-- All that executing a program finds of what was run before. -/
def past (m : Machine) : Past :=
  ⟨m.world.store, m.stack.slots, m.world.host.output, m.world.journal.messages, m.world.journal.total⟩

theorem shift_empty_store (p : Store) : p.shift .empty = p := by
  have honto : ∀ {α : Type} (a : Array α) (f : α → α), onto a f #[] = a := by
    intro α a f
    rw [onto, Array.map_empty, Array.append_empty]
  obtain ⟨rows, lists, dicts, instances, closures, frames⟩ := p
  unfold Store.shift Store.empty
  simp only [honto]

theorem renewed_world (m : Machine) : m.renewed.world.shift m.past = m.world := by
  have houtput : m.world.host.output ++ Text.empty = m.world.host.output :=
    congrArg Text.mk ByteArray.append_empty
  have hmessages : m.world.journal.messages ++
      m.renewed.world.journal.messages.extract 0 (Journal.limit - m.past.messages.size) =
        m.world.journal.messages := by
    rw [show m.renewed.world.journal.messages = #[] from rfl, Array.extract_empty, Array.append_empty]
  show World.mk (m.world.store.shift .empty)
    { m.world.host with output := m.world.host.output ++ Text.empty }
    ⟨m.world.journal.recording, m.world.journal.messages ++ _, m.world.journal.total⟩ = m.world
  rw [shift_empty_store, houtput, hmessages]

/-- A program begins with nothing of the engine but its world, its library, its options and the slots of
its stack. -/
theorem reset_congr {m m' : Machine} (hworld : m.world = m'.world) (hlibrary : m.library = m'.library)
    (hoptions : m.options = m'.options) (hslots : m.stack.slots = m'.stack.slots) (p : Program) :
    m.reset p = m'.reset p := by
  obtain ⟨w, l, o, _, _, _, ⟨slots, _⟩, _, _, _, _, _⟩ := m
  obtain ⟨w', l', o', _, _, _, ⟨slots', _⟩, _, _, _, _, _⟩ := m'
  dsimp only at hworld hlibrary hoptions hslots
  subst hworld hlibrary hoptions hslots
  rfl

/-- Executing a program finds nothing else of what was run before. -/
theorem execute_renewed (fuel : Nat) (m : Machine) (p : Program) :
    (m.renewed.shift m.past).execute fuel p = m.execute fuel p := by
  have hslots : (#[] : Array Value).map (Value.shift m.world.store) ++
      m.stack.slots.extract 0 m.stack.slots.size = m.stack.slots := by
    rw [Array.map_empty, Array.empty_append, Array.extract_size]
  have hreset : (m.renewed.shift m.past).reset p = m.reset p :=
    @reset_congr (m.renewed.shift m.past) m (renewed_world m) rfl rfl hslots p
  unfold execute
  rw [hreset]

theorem globals_shift (past : Past) (m : Machine) :
    (m.shift past).globals = m.globals.map fun b => (b.1, b.2.shift past.store) := by
  have hroot : (m.shift past).root.bind (m.shift past).world.store.frame? =
      (m.root.bind m.world.store.frame?).map (Frame.shift past.store) := by
    show (shiftFrame past.store m.root).bind _ = _
    cases m.root with
    | none => rfl
    | some root => exact Store.frame?_shift past.store m.world.store root
  unfold globals
  rw [hroot]
  cases m.root.bind m.world.store.frame? with
  | none => rfl
  | some fr => exact Table.sorted_mapValues _ fr.vars

theorem has_globals (hs : m.world.store.Scoped) {b : Text × Value} (h : b ∈ m.globals) :
    m.world.store.Has b.2 := by
  unfold globals at h
  cases hroot : m.root.bind m.world.store.frame? with
  | none =>
    rw [hroot] at h
    cases h
  | some fr =>
    rw [hroot] at h
    obtain ⟨root, -, hfr⟩ := Option.bind_eq_some_iff.mp hroot
    exact hs.frames fr (Array.mem_of_getElem? hfr) b (List.mem_mergeSort.mp h)

theorem shownGlobals_shift (past : Past) (hs : m.world.store.Scoped) :
    (m.shift past).shownGlobals = m.shownGlobals := by
  unfold shownGlobals
  rw [globals_shift, List.map_map]
  refine List.map_congr_left fun b hb => ?_
  have hhas := has_globals hs hb
  show (b.1, (past.store.shift m.world.store).display _, (past.store.shift m.world.store).repr _) = _
  rw [Store.display_shift hs hhas, Store.repr_shift hs hhas]

end Machine

/-- What is known of an engine whose library keeps no state, put behind a past. -/
def Law.behind (past : Past) {library : Library} (hinert : library.bindings.Every Value.Inert)
    (hheeds : library.Heeds Store.Tends) (hstateless : library.Stateless) : Law where
  library := library
  native := Store.Tends
  tends _ _ h := h
  heeds := hheeds
  lent _ _ _ := True
  past := past
  twin := True
  inert _ := hinert
  stateless _ := hstateless

/-- Executing a program gives the same as in a new engine, whatever the engine has done before: the
same value or the same problems and call history, the same output behind what was printed before,
and the same bindings of the root frame. The objects of the run are those of the new engine, with
other numbers. -/
theorem executions_independent {m : Machine} (hinert : m.library.bindings.Every Value.Inert)
    (hheeds : m.library.Heeds Store.Tends) (hstateless : m.library.Stateless) (fuel : Nat)
    (p : Program) :
    (m.execute fuel p = none ∧ m.renewed.execute fuel p = none) ∨
      ∃ e m₁ e' m₂, m.execute fuel p = some (e, m₁) ∧ m.renewed.execute fuel p = some (e', m₂) ∧
        e.told m₁.world.store = e'.told m₂.world.store ∧
        m₁.world.host = { m₂.world.host with output := m.world.host.output ++ m₂.world.host.output } ∧
        m₁.shownGlobals = m₂.shownGlobals ∧
        m₁.world.store = m.world.store.shift m₂.world.store ∧
        m₁.globals = m₂.globals.map fun b => (b.1, b.2.shift m.world.store) := by
  have hsound : m.renewed.Sound (.behind m.past hinert hheeds hstateless) :=
    .new Store.scoped_empty (hinert.imp fun _ hv => .inert hv) m.options
  obtain ⟨hexecute, hleft⟩ := hsound.execute trivial (fun _ _ _ => trivial) fuel p
  rw [show (Law.behind m.past hinert hheeds hstateless).past = m.past from rfl,
    Machine.execute_renewed] at hexecute
  cases hnew : m.renewed.execute fuel p with
  | none =>
    rw [hnew] at hexecute
    exact Or.inl ⟨hexecute, rfl⟩
  | some r =>
    obtain ⟨e, m'⟩ := r
    rw [hnew] at hexecute
    obtain ⟨hm', he⟩ := hleft e m' hnew
    refine Or.inr ⟨_, _, e, m', hexecute, rfl, Ending.told_shift hm'.store he, rfl, ?_, rfl, ?_⟩
    · exact Machine.shownGlobals_shift m.past hm'.store
    · exact Machine.globals_shift m.past m'

/-!
# A run after one that failed
-/

/-- The program `(func() { return missing })()`. -/
def unboundCall : List Stmt :=
  [.expr .zero (.call .zero
    (.func .zero Text.empty [] (.mk .zero [.ret .zero (some (.var .zero "missing"))])) [])]

/-- The program `xs = ["one"]`. -/
def textList : List Stmt :=
  [.expr .zero (.assign .zero (.var .zero "xs") (.list .zero [.text .zero "one"]) .nearest)]

theorem executions_independent_unboundCall :
    ∃ c d e m e₁ m₁ e₂ m₂, (Compiler.compile .absent false unboundCall).result = .ok c ∧
      (Compiler.compile .absent false textList).result = .ok d ∧
      relayEngine.execute 30 c.program = some (e, m) ∧ m.calls.size = 1 ∧
      m.execute 30 d.program = some (e₁, m₁) ∧ m.renewed.execute 30 d.program = some (e₂, m₂) ∧
      e₁.told m₁.world.store = e₂.told m₂.world.store ∧ m₁.shownGlobals = m₂.shownGlobals := by
  obtain ⟨c, d, hc, hd, hfirst⟩ : ∃ c d, (Compiler.compile .absent false unboundCall).result = .ok c ∧
      (Compiler.compile .absent false textList).result = .ok d ∧
      ((relayEngine.execute 30 c.program).any fun r =>
        r.2.calls.size == 1 && (r.2.execute 30 d.program).isSome) = true :=
    ⟨_, _, rfl, rfl, by decide +kernel⟩
  obtain ⟨⟨e, m⟩, hm, hleft⟩ := (Option.any_eq_true _ _).mp hfirst
  obtain ⟨hcalls, hsecond⟩ := Bool.and_eq_true_iff.mp hleft
  have hinert : Library.relaying.bindings.Every Value.Inert := by
    intro b hb
    rw [List.mem_singleton.mp hb]
    trivial
  have hheeds : Library.relaying.Heeds Store.Tends := Library.relaying_heeds fun s hs => ⟨hs, .refl s, rfl⟩
  have hsound : relayEngine.Sound (.behind relayEngine.past hinert hheeds Library.relaying_stateless) :=
    .new Store.scoped_empty (hinert.imp fun _ hv => .inert hv) _
  have hlibrary : m.library = .relaying :=
    ((hsound.execute trivial (fun _ _ _ => trivial) 30 c.program).2 e m hm).1.library
  rcases executions_independent (hlibrary ▸ hinert) (hlibrary ▸ hheeds)
      (hlibrary ▸ Library.relaying_stateless) 30 d.program with
    ⟨hnone, -⟩ | ⟨e₁, m₁, e₂, m₂, hrun, hnew, htold, -, hglobals, -, -⟩
  · rw [hnone] at hsecond
    cases hsecond
  · exact ⟨c, d, e, m, e₁, m₁, e₂, m₂, hc, hd, hm, eq_of_beq hcalls, hrun, hnew, htold, hglobals⟩

end ScriptEngine
