import ScriptEngine.Proofs.Execution.Compiled

/-!
# Calls on behalf of waiting work

Natives, constructors, conversions and instructions have the engine call something and wait for the
outcome. When the outcome arrives, value or fault, the engine is in the posture in which the call
was asked for. Meanwhile that posture lies untouched below whatever the call does: this is why
snapshots, which keep depths only, are enough to take the engine back.
-/

namespace ScriptEngine

/-- The second state comes after the first one, before any outcome but possibly its own is handed to
the pending work. -/
inductive State.Within (pending : List Pending) (s : State) : State → Prop
  | refl : Within pending s s
  | step {s' s'' : State} (h : Within pending s s')
    (hopen : ∀ o, s'.mode = .delivering o → s'.pending ≠ pending)
    (hnext : s'.advance = .next s'') : Within pending s s''

section
variable {r : Regime} {pending floor : List Pending} {q : Posture} {st : Store} {s s' : State}

/-- Work that is put on top of the floor makes the pending list longer; on the floor itself only the
floor's own posture is waited for. -/
def Footing.OnFloor (floor pending : List Pending) (q : Posture) : Footing → Prop
  | .active .. => floor.length < pending.length
  | .waiting p => floor.length ≤ pending.length ∧ (pending.length = floor.length → p = q)

theorem Stands.onFloor (hfloor : r.floor = some (floor, .waiting q)) {footing : Footing}
    (h : Stands r st pending footing) : footing.OnFloor floor pending q := by
  induction h with
  | floor h =>
    rw [hfloor] at h
    cases h
    exact ⟨Nat.le_refl _, fun _ => rfl⟩
  | top h =>
    rw [hfloor] at h
    cases h
  | called _ _ _ _ _ _ ih => exact ih
  | nested _ _ ih => exact Nat.lt_succ_of_le ih.1
  | instruction _ _ _ _ _ ih =>
    have hlt := Nat.lt_succ_of_lt ih
    exact ⟨Nat.le_of_lt hlt, fun heq => absurd heq.symm (Nat.ne_of_lt hlt)⟩
  | construct _ ih | convert _ ih | native _ _ _ _ ih =>
    have hlt := Nat.lt_succ_of_le ih.1
    exact ⟨Nat.le_of_lt hlt, fun heq => absurd heq.symm (Nat.ne_of_lt hlt)⟩

/-- What arrives at the floor finds the floor's posture. -/
theorem InOrder.arrives {m : Machine} {o : Except Fault Value}
    (hfloor : r.floor = some (floor, .waiting q)) (h : InOrder r ⟨m, floor, .delivering o⟩) :
    m.posture = q := by
  cases h with
  | settled hm hs => exact (hs.onFloor hfloor).2 rfl
  | returned hm hs =>
    have hle := (hs.onFloor hfloor).1
    exact absurd hle (Nat.not_le_of_lt (Nat.lt_succ_self _))
  | ended hm hnone =>
    rw [hfloor] at hnone
    cases hnone
  | broken hm hs => exact absurd (hs.onFloor hfloor) (Nat.lt_irrefl _)

/-!
# What lies below
-/

/-- The posture lies below what a level of a run stands on. -/
def Footing.Over (q : Posture) : Footing → Prop
  | .active g _ _ => q.stack <:+ g.stack ∧ q.captured.toList <+: g.captured.toList ∧
    q.calls.toList <+: g.calls.toList ∧ q.natives.toList <+: g.natives.toList
  | .waiting p => q.Below p

theorem Footing.Over.ground {p : Posture} {around : Option FrameId} {reentry : Bool} {b : FrameId}
    (h : q.Below p) : (Footing.active (p.ground around reentry) b true).Over q := by
  refine ⟨h.stack, ?_, ?_, h.natives⟩
  · show q.captured.toList <+: (p.captured.push around).toList
    rw [Array.toList_push]
    exact h.captured.trans (List.prefix_append _ _)
  · show q.calls.toList <+: (p.calls.push _).toList
    rw [Array.toList_push]
    exact h.calls.trans (List.prefix_append _ _)

theorem Footing.Over.on {g : Ground} {b : FrameId} {inCall : Bool} {p : Posture}
    (h : (Footing.active g b inCall).Over q) (hp : p.On g) : q.Below p := by
  obtain ⟨hstack, hcaptured, hcalls, hnatives⟩ := h
  refine ⟨hstack.trans hp.stack, ?_, ?_, ?_⟩
  · rw [hp.captured]
    exact hcaptured
  · rw [hp.calls]
    exact hcalls
  · rw [hp.natives]
    exact hnatives

theorem Posture.Below.within {p : Posture} (h : q.Below p) (name : Text) :
    q.Below (p.within name) := by
  refine ⟨h.stack, h.captured, h.calls, ?_⟩
  show q.natives.toList <+: (p.natives.push name).toList
  rw [Array.toList_push]
  exact h.natives.trans (List.prefix_append _ _)

theorem Stands.over (hfloor : r.floor = some (floor, .waiting q)) {footing : Footing}
    (h : Stands r st pending footing) : footing.Over q := by
  induction h with
  | floor h =>
    rw [hfloor] at h
    cases h
    exact .refl _
  | top h =>
    rw [hfloor] at h
    cases h
  | called _ hq _ _ _ _ ih => exact .ground (ih.on hq.on)
  | nested _ _ ih => exact .ground ih
  | instruction _ hq _ _ _ ih => exact ih.on hq.on
  | construct _ ih => exact Posture.Below.within ih _
  | convert _ ih => exact Posture.Below.within ih _
  | native _ _ _ _ ih => exact Posture.Below.within ih _

/-- Above a floor nothing of the floor's posture is touched. -/
theorem InOrder.over (hfloor : r.floor = some (floor, .waiting q)) (h : InOrder r s) :
    q.Below s.machine.posture := by
  cases h with
  | running hm hs hq => exact (hs.over hfloor).on hq.on
  | invoking hm hs => exact hs.over hfloor
  | settled hm hs => exact hs.over hfloor
  | returned hm hs hq =>
    have hbelow : q.Below _ := hs.over hfloor
    rw [hq]
    exact ⟨hbelow.stack, hbelow.captured, hbelow.calls, hbelow.natives⟩
  | ended hm hnone =>
    rw [hfloor] at hnone
    cases hnone
  | broken hm hs hq => exact (hs.over hfloor).on hq

/-!
# Calls and their outcomes
-/

theorem State.Within.inOrder (hr : r.Valid) (hfloor : r.floor = some (floor, .waiting q))
    (hs : InOrder r s) (h : State.Within floor s s') : InOrder r s' := by
  induction h with
  | refl => exact hs
  | @step s' s'' _ hopen hnext ih =>
    have hadvance := advance_inOrder hr ih (Regime.not_leaves_waiting hfloor hopen)
    rw [hnext] at hadvance
    exact hadvance

end

section
variable {linker : Linker} {exporting : Bool} {body : List Stmt} {c : Compiler.Compiled}
  {m m₀ : Machine} {pending : List Pending} {callee : Value} {args : List Value} {s : State}

end

/-!
# A native that calls itself
-/

end ScriptEngine
