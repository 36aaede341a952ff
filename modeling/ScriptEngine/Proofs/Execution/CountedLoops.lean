import ScriptEngine.Native.Embedding
import ScriptEngine.Proofs.Compiler.Obedience
import ScriptEngine.Proofs.Execution.Compiled
import ScriptEngine.Proofs.Execution.Equality
import ScriptEngine.Proofs.Machine.Rounds
import ScriptEngine.Proofs.Native.Rules

/-!
# Counted loops

A loop with a count executes its body as often as the count says: its counter and the count are bound in a
scope of its own, which nothing else can reach.
-/

namespace ScriptEngine

/-- The counted loop that an entry of the debug table belongs to. -/
structure LoopSite.Of (site : LoopSite) (p : Program) (e : DebugEntry) : Prop where
  stop : e.stop = (site.stop : Nat)
  length : e.length = (site.stop : Nat) - (site.start : Nat)
  written : site.Written (Op.ofProgram p).ops

/-- However far the program gets on the engine, no scope binds the name. -/
def Machine.NeverBinds (m : Machine) (p : Program) (name : Text) : Prop :=
  ∀ s, m.Reaches p s → ∀ f, s.machine.world.store.var f name = none

theorem Machine.NeverBinds.resolve {m : Machine} {p : Program} {name : Text} (h : m.NeverBinds p name)
    {s : State} (hs : m.Reaches p s) : s.machine.resolve name = s.machine.library.resolve name := by
  unfold Machine.resolve
  rw [Store.lookup_unbound fun f fr hf => by
    have hvar := h s hs f
    unfold Store.var at hvar
    rw [hf] at hvar
    exact hvar]

section
variable {u : Usage} {p : Program} {code : Op.Fitted} {m m₁ : Machine} {r : Regime} {site : LoopSite}
  {pending : List Pending} {s : State} {n : Nat}

/-- What the engine is like where a counted loop has been told how often to execute its body. -/
structure LoopSite.Counted (site : LoopSite) (code : Op.Fitted) (m₁ m₂ : Machine) : Prop where
  live : (code.ty site.counted).live = true
  scope : ∃ f fr, m₂.frame = some f ∧ m₂.world.store.frame? f = some fr ∧ fr.outer = m₁.frame ∧
    fr.isBoundary = false
  operands : ∃ l v, m₁.Stacks l ∧ m₂.Stacks (v :: l)
  natives : m₂.natives = m₁.natives

/-- The expression that counts leaves its value in the scope of the loop. -/
theorem LoopSite.Kept.counted (h : site.Kept u p code m) (hr : r.Governs u p code m)
    (hreaches : m.Reaches p ⟨m₁, pending, .running⟩) (hip : m₁.ip = site.start)
    (hcomes : State.Comes pending m₁.calls.size (· = site.counted) ⟨m₁, pending, .running⟩ s) :
    site.Counted code m₁ s.machine := by
  have hready := h.ready hr hreaches rfl
  obtain ⟨j, hnext⟩ := State.opensScope hready.program hip
    (hready.inside (Nat.lt_trans h.stands.counts (hready.counted_lt (j := 0) (by decide)))) hready.written.enter
    pending
  obtain ⟨m₂, hm₂⟩ : ∃ m₂, m₂ =
      { (m₁.withStore (m₁.world.store.newFrame ⟨Table.empty, m₁.frame, .block⟩).2).withJournal j with
        frame := some m₁.world.store.frames.size, ip := ((site.start + 1 : Nat) : Int) } := ⟨_, rfl⟩
  rw [← hm₂] at hnext
  have hnot : ¬ State.Arrives pending m₁.calls.size (· = site.counted) ⟨m₁, pending, .running⟩ := by
    rintro ⟨-, -, -, i, hi, rfl⟩
    exact Nat.ne_of_lt h.stands.counts (Int.ofNat.inj (hip.symm.trans hi))
  replace hcomes := hcomes.next hnot hnext
  obtain ⟨-, -, -, i, hat, hi⟩ := hcomes.arrives
  obtain rfl : i = site.counted := hi
  have hresumes := hcomes.resumes hr (hreaches.step hnext) (f := m₁.world.store.frames.size)
    (by rw [hm₂]; rfl) (by rw [hm₂]) (by rw [hm₂]) (by rw [h.laid.enter]; exact List.not_mem_nil)
    h.stands.count hat
  obtain ⟨fr, hfr, hkind, houter⟩ := hresumes.keeps.frames.frames m₁.world.store.frames.size
    ⟨Table.empty, m₁.frame, .block⟩ (by
      rw [hm₂]
      exact Store.newFrame_frame? m₁.world.store ⟨Table.empty, m₁.frame, .block⟩)
  obtain ⟨below, l₁, l₂, known, hstack₁, hlen₁, hstack₂, hfill₂⟩ := hresumes.stack
  have hlen₂ := hfill₂.length
  rw [h.laid.enter] at hlen₁
  rw [h.laid.counted hresumes.live] at hlen₂
  obtain rfl := List.eq_nil_of_length_eq_zero hlen₁
  obtain ⟨v, rfl⟩ := List.length_eq_one_iff.mp hlen₂
  refine ⟨hresumes.live, ⟨_, fr, hresumes.frame (h.laid.countedScopes hresumes.live), hfr, houter, ?_⟩,
    ⟨below, v, ?_, hstack₂⟩, ?_⟩
  · unfold Frame.isBoundary
    rw [hkind]
  · rw [hm₂] at hstack₁
    exact ⟨hstack₁.backed, hstack₁.items⟩
  · rw [hresumes.natives, hm₂]
    rfl

end

/-- A compiled program under a regime: what entries of the debug table say about layouts, and about loops. -/
structure Regime.Hosts (r : Regime) (u : Usage) (p : Program) (code : Op.Fitted) (m : Machine) : Prop extends
    r.Governs u p code m where
  library : r.library = m.library
  reads : Op.ofProgram p = ⟨code.ops, none⟩
  size : code.ops.size = p.size
  nodes : Compiler.NodesGain p code.ty
  bare : Compiler.LoopsBare p code.ty
  loops : ∀ e ∈ p.debug, Compiler.ofLoop e.kind = true → ∃ start stop : Nat, e.stop = stop ∧
    e.length = (stop : Int) - start ∧ Op.Loops u code.ops p.debug 0 e.kind start stop

section
variable {r : Regime} {u : Usage} {p : Program} {code : Op.Fitted} {m : Machine} {e : DebugEntry} {start stop : Nat}

/-- A loop begins without operands. -/
theorem Regime.Hosts.empty (h : r.Hosts u p code m) (he : e ∈ p.debug) (hkind : Compiler.ofLoop e.kind = true)
    (hstop : e.stop = stop) (hlength : e.length = (stop : Int) - start) : (code.ty start).slots = [] :=
  h.bare e he hkind start (by rw [hstop, hlength]; omega)

end

section
variable {linker : Linker} {exporting : Bool} {body : List Stmt} {c : Compiler.Compiled} {m m₁ : Machine}
  {strict : Prop} {known : NativeInfo → Prop} {e : DebugEntry}

end

/-!
# A loop whose body changes what was counted
-/

namespace State

/-- Whether the activation in front of no pending work is at one of the positions. -/
def isAt (k : Nat) (stop : Nat → Bool) (s : State) : Bool :=
  match s.mode, s.pending with
  | .running, [] => s.machine.calls.size == k && decide (0 ≤ s.machine.ip) && stop s.machine.ip.toNat
  | _, _ => false

/-- Whether that activation is over. -/
def isOver (k : Nat) (s : State) : Bool :=
  match s.mode, s.pending with
  | .running, [] => decide (s.machine.calls.size < k)
  | _, [] => true
  | _, _ => false

variable {k fuel : Nat} {stop : Nat → Bool} {check : State → Bool} {s e : State}

end State

/-- Whether the operation puts the value on the stack. -/
def Op.pushes (v : Value) : Option Op → Bool
  | some (.push w) => decide (w = v)
  | _ => false

theorem Op.eq_of_pushes {v : Value} {o : Option Op} (h : Op.pushes v o = true) : o = some (.push v) := by
  unfold Op.pushes at h
  split at h
  · rw [of_decide_eq_true h]
  · cases h

namespace Native

end Native

section
variable {m : Machine} {n : NativeInfo} {f : Value}

end

end ScriptEngine
