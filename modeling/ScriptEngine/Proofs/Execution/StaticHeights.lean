import ScriptEngine.Proofs.Execution.Compiled

/-!
# Static heights

Compiled code runs with one operand height and one scope height for each instruction, whatever
calls, callbacks and jumps lead there. The operand height counts from the base of the innermost call
in progress, the scope height from the boundary frame of that call.
-/

namespace ScriptEngine

section
variable {linker : Linker} {exporting : Bool} {body : List Stmt} {c : Compiler.Compiled}
  {m : Machine} {r : Regime} {s : State}

/-- Work that waits does so for an instruction that is to give a value. -/
theorem Stands.awaits (hfloor : r.floor = none) {st : Store} {pending : List Pending} {q : Posture}
    (h : Stands r st pending (.waiting q)) :
    ∃ (i : Nat) (a : Layout) (g : Ground) (b f : FrameId) (l : List Value), q.ip = i ∧
      r.ty (i + 1) = a.push .value ∧ q.calls = g.calls ∧
      (g.calls.back?.map (·.depth)).getD 0 = g.stack.length ∧ q.stack = l ++ g.stack ∧
      l.length = a.slots.length ∧ q.frame = some f ∧ st.Above f a.scopes b := by
  generalize hfooting : Footing.waiting q = footing at h
  induction h generalizing q with
  | floor h =>
    rw [hfloor] at h
    cases h
  | top => cases hfooting
  | called => cases hfooting
  | nested => cases hfooting
  | @instruction _ g b _ a _ i h hq hip _ hty =>
    cases hfooting
    obtain ⟨l, hstack, hfill⟩ := hq.stack
    obtain ⟨f, hframe, habove⟩ := hq.frame
    exact ⟨i, a, g, b, f, l, hip, hty, hq.calls, h.base hfloor, hstack, hfill.length, hframe, habove⟩
  | construct _ ih =>
    cases hfooting
    have h := ih rfl
    exact h
  | convert _ ih =>
    cases hfooting
    have h := ih rfl
    exact h
  | native _ _ _ _ ih =>
    cases hfooting
    have h := ih rfl
    exact h

end

end ScriptEngine
