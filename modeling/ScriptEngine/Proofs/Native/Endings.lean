import ScriptEngine.Proofs.Machine.Coordination

/-!
# Natives that call nothing

A native that calls nothing has ended before the engine goes on. Its result or its fault is handed to
whoever called it, and the engine is as it was in between, but for the world; only a crash ends the
run.
-/

namespace ScriptEngine

/-- A native as a value, bound to a receiver if there is one. -/
def Value.callable (n : NativeInfo) : Option Value → Value
  | none => .native n
  | some receiver => .bound n receiver

namespace Effect

variable {α β : Type} {x : Effect α} {k : α → Effect β} {a : α} {stop : Stop} {w w' : World}

theorem bind_of_ok (h : x w = .ok a w') : (x >>= k) w = k a w' := by
  show EStateM.bind x k w = _
  unfold EStateM.bind
  rw [h]

theorem bind_of_error (h : x w = .error stop w') : (x >>= k) w = .error stop w' := by
  show EStateM.bind x k w = _
  unfold EStateM.bind
  rw [h]

end Effect

namespace Action

variable {e : Effect Value} {v : Value} {f : Fault} {message : Text} {w w' : World}

theorem ofEffect_ok (h : e w = .ok v w') :
    ofEffect (e >>= fun v => pure (some v)) w = .done (some v) w' := by
  simp only [ofEffect, bind, EStateM.bind, h]
  rfl

theorem ofEffect_fault (h : e w = .error (.fault f) w') :
    ofEffect (e >>= fun v => pure (some v)) w = .fail f w' := by
  simp only [ofEffect, bind, EStateM.bind, h]

theorem ofEffect_crash (h : e w = .error (.crash message) w') :
    ofEffect (e >>= fun v => pure (some v)) w = .crash message w' := by
  simp only [ofEffect, bind, EStateM.bind, h]

end Action

namespace State

variable {m : Machine} {pending : List Pending} {n : NativeInfo} {receiver : Option Value}
  {args : List Value} {f : Fault} {w : World}

theorem advance_callable (m : Machine) (pending : List Pending) (n : NativeInfo)
    (receiver : Option Value) (args : List Value) :
    advance ⟨m, pending, .invoking (Value.callable n receiver) args⟩ =
      startNative m pending n receiver args := by
  cases receiver <;> rfl

/-- The arguments with the receiver among them are as many as the native takes. -/
def Takes (n : NativeInfo) (all : List Value) : Prop :=
  ∀ arity, n.arity = some arity → all.length = arity

theorem startNative_takes (h : Takes n (Exec.withReceiver receiver args)) :
    startNative m pending n receiver args =
      enterNative m pending n (Exec.withReceiver receiver args) := by
  unfold startNative
  cases harity : n.arity with
  | none => rfl
  | some arity =>
    dsimp only
    rw [if_neg (by rw [h arity harity, bne_self_eq_false]; exact Bool.false_ne_true)]

/-- A native that is given the wrong number of arguments is refused. -/
theorem startNative_refused (h : ¬ Takes n (Exec.withReceiver receiver args)) :
    ∃ message, startNative m pending n receiver args =
      .next ⟨m, pending, .delivering (.error (.raised .arity message))⟩ := by
  unfold startNative
  cases harity : n.arity with
  | none => exact (h fun arity hsome => by rw [harity] at hsome; cases hsome).elim
  | some arity =>
    have hne : (Exec.withReceiver receiver args).length ≠ arity := fun heq =>
      h fun other hsome => by
        rw [harity] at hsome
        cases hsome
        exact heq
    dsimp only
    rw [if_pos (bne_iff_ne.mpr hne)]
    exact ⟨_, rfl⟩

/-- So is one that finds the natives at their limit. -/
theorem enterNative_full (all : List Value) (h : nativeLimit ≤ m.natives.size) :
    ∃ message, enterNative m pending n all =
      .next ⟨m, pending, .delivering (.error (.raised .callDepth message))⟩ := by
  unfold enterNative
  rw [if_pos h]
  exact ⟨_, rfl⟩

section
variable {all : List Value}

theorem enterNative_action (h : m.natives.size < nativeLimit) :
    enterNative m pending n all =
      follow { m with world := default, natives := m.natives.push n.name } pending n m.snapshot
        (m.library.behaviour n all m.world) := by
  unfold enterNative
  rw [if_neg (Nat.not_le_of_lt h)]
  rfl

/-- The result of a native goes to its caller. -/
theorem enterNative_done {result : Option Value} (h : m.natives.size < nativeLimit)
    (haction : m.library.behaviour n all m.world = .done result w) :
    enterNative m pending n all =
      .next ⟨{ m with world := w }, pending, .delivering (.ok (result.getD .null))⟩ := by
  rw [enterNative_action h, haction]
  unfold follow
  simp only [Array.pop_push]
  rfl

/-- So does its fault, once it is located, and the store is what the native left. -/
theorem enterNative_fail (pending : List Pending) (h : m.natives.size < nativeLimit)
    (haction : m.library.behaviour n all m.world = .fail f w) :
    ∃ m', enterNative m pending n all =
        .next ⟨m', pending, .delivering (.error (nativeFault { m with world := w } n f))⟩ ∧
      m'.world.store = w.store := by
  obtain ⟨m₁, hm₁⟩ : ∃ m₁ : Machine, m₁ = { m with world := w, natives := m.natives.push n.name } :=
    ⟨_, rfl⟩
  have hcovers : m₁.outOfNative.covers m.snapshot = true := by
    subst hm₁
    simp [Machine.covers, Machine.snapshot, Machine.outOfNative]
  have hfail : enterNative m pending n all = failNative m₁ pending n m.snapshot f := by
    rw [enterNative_action h, haction, hm₁]
    rfl
  have hfault : nativeFault (m₁.outOfNative.restore m.snapshot) n f =
      nativeFault { m with world := w } n f := by
    subst hm₁
    rfl
  rw [hfail]
  rcases failNative_cases m₁ pending n m.snapshot f with ⟨j, hdelivers⟩ | hcrash
  · rw [hfault] at hdelivers
    refine ⟨(m₁.outOfNative.restore m.snapshot).withJournal j, hdelivers, ?_⟩
    subst hm₁
    rfl
  · unfold failNative at hcrash
    dsimp only at hcrash
    split at hcrash
    · cases hcrash
    · rename_i hnot
      exact (hnot hcovers).elim

theorem enterNative_crash {message : Text} (h : m.natives.size < nativeLimit)
    (haction : m.library.behaviour n all m.world = .crash message w) :
    ∃ m', enterNative m pending n all = .crashed message m' := by
  rw [enterNative_action h, haction]
  exact ⟨_, rfl⟩

end

end State
end ScriptEngine
