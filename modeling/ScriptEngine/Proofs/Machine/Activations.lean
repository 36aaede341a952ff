import ScriptEngine.Proofs.Native.Conduct

/-!
# Activations

What a run in progress looks like. Every call in progress has an activation: a part of the operand
stack of its own above what was there when it was entered, and a boundary frame that leads back to
the frame of its caller. Work that waits for an outcome stands between activations, and knows the
posture of the engine that it will find again.
-/

namespace ScriptEngine

/-- Everything of the engine that a call in progress must give back: the operand stack from its top,
the current frame, the stacks that describe the calls in progress, and the place in the program. -/
structure Posture where
  stack : List Value
  frame : Option FrameId
  captured : Array (Option FrameId)
  calls : Array CallRecord
  natives : Array Text
  ip : Int

/-- What an activation stands on: the operand stack below its own part, and the stacks that describe
the calls in progress, its own included. -/
structure Ground where
  stack : List Value
  captured : Array (Option FrameId)
  calls : Array CallRecord
  natives : Array Text

def Machine.posture (m : Machine) : Posture :=
  ⟨m.stack.items, m.frame, m.captured, m.calls, m.natives, m.ip⟩

namespace Posture

/-- The depths that a snapshot of the posture holds. -/
def snapshot (q : Posture) : Snapshot :=
  ⟨q.stack.length, q.frame, q.captured.size, q.calls.size, q.natives.size, q.ip⟩

/-- The posture while a native runs. -/
def within (q : Posture) (name : Text) : Posture :=
  { q with natives := q.natives.push name }

/-- What the activation of a call made in this posture stands on. -/
def ground (q : Posture) (around : Option FrameId) (reentry : Bool) : Ground :=
  ⟨q.stack, q.captured.push around, q.calls.push ⟨q.ip, q.stack.length, reentry⟩, q.natives⟩

/-- The posture is that of an activation on the ground, or of what a failure in it left behind. -/
structure On (q : Posture) (g : Ground) : Prop where
  stack : g.stack <:+ q.stack
  captured : q.captured = g.captured
  calls : q.calls = g.calls
  natives : q.natives = g.natives

end Posture

theorem Machine.snapshot_eq {m : Machine} (h : m.stack.Backed) : m.snapshot = m.posture.snapshot := by
  unfold Machine.snapshot Posture.snapshot Machine.posture
  rw [OperandStack.length_items h]

/-!
# Slots and the values in them
-/

namespace Slot

variable {tidy : Prop} {n : NativeInfo → Prop} {s s' : Store}

/-- The value is what the slot says. -/
def Holds (tidy : Prop) (n : NativeInfo → Prop) (s : Store) : Slot → Value → Prop
  | value, v => Exec.Good tidy n v s
  | name, v => ∃ t, v = .text t
  | count k, v => v = .number (Number.ofNat k) ∧ k ≤ limit
  | marker, v => v = .empty

/-- The values are what the slots say. -/
def Fill (tidy : Prop) (n : NativeInfo → Prop) (s : Store) : List Slot → List Value → Prop
  | [], [] => True
  | a :: slots, v :: values => a.Holds tidy n s v ∧ Fill tidy n s slots values
  | _, _ => False

theorem Holds.extends {a : Slot} {v : Value} (h : a.Holds tidy n s v) (hs : s.Extends s') :
    a.Holds tidy n s' v := by
  cases a with
  | value => exact fun ht => (h ht).mono hs.size_closures
  | name => exact h
  | count => exact h
  | marker => exact h

theorem Fill.extends {slots : List Slot} {l : List Value} (h : Fill tidy n s slots l)
    (hs : s.Extends s') : Fill tidy n s' slots l := by
  induction slots generalizing l with
  | nil => cases l <;> exact h
  | cons a slots ih =>
    cases l with
    | nil => exact h
    | cons v l => exact ⟨h.1.extends hs, ih h.2⟩

theorem Fill.length {slots : List Slot} {l : List Value} (h : Fill tidy n s slots l) :
    l.length = slots.length := by
  induction slots generalizing l with
  | nil =>
    cases l with
    | nil => rfl
    | cons => exact absurd h id
  | cons a slots ih =>
    cases l with
    | nil => exact absurd h id
    | cons v l => exact congrArg (· + 1) (ih h.2)

theorem Fill.cons {a : Slot} {slots : List Slot} {l : List Value}
    (h : Fill tidy n s (a :: slots) l) :
    ∃ v rest, l = v :: rest ∧ a.Holds tidy n s v ∧ Fill tidy n s slots rest := by
  cases l with
  | nil => exact absurd h id
  | cons v rest => exact ⟨v, rest, rfl, h.1, h.2⟩

theorem Fill.split {slots slots' : List Slot} {l : List Value}
    (h : Fill tidy n s (slots ++ slots') l) :
    ∃ l₁ l₂, l = l₁ ++ l₂ ∧ Fill tidy n s slots l₁ ∧ Fill tidy n s slots' l₂ := by
  induction slots generalizing l with
  | nil => exact ⟨[], l, rfl, trivial, h⟩
  | cons a slots ih =>
    obtain ⟨v, rest, rfl, hv, hrest⟩ := Fill.cons h
    obtain ⟨l₁, l₂, rfl, h₁, h₂⟩ := ih hrest
    exact ⟨v :: l₁, l₂, rfl, ⟨hv, h₁⟩, h₂⟩

theorem Fill.values {k : Nat} {l : List Value} (h : Fill tidy n s (.replicate k .value) l) :
    l.length = k ∧ ∀ v ∈ l, Exec.Good tidy n v s := by
  refine ⟨by rw [Fill.length h, List.length_replicate], ?_⟩
  induction k generalizing l with
  | zero =>
    cases l with
    | nil => exact fun v hv => absurd hv List.not_mem_nil
    | cons => exact absurd h id
  | succ k ih =>
    obtain ⟨v, rest, rfl, hv, hrest⟩ := Fill.cons h
    intro w hw
    rcases List.mem_cons.mp hw with rfl | hw
    · exact hv
    · exact ih hrest w hw

theorem Fill.names {k : Nat} {l : List Value} (h : Fill tidy n s (.replicate k .name) l) :
    ∃ names : List Text, names.length = k ∧ l = names.map Value.text := by
  induction k generalizing l with
  | zero =>
    cases l with
    | nil => exact ⟨[], rfl, rfl⟩
    | cons => exact absurd h id
  | succ k ih =>
    obtain ⟨v, rest, rfl, ⟨t, rfl⟩, hrest⟩ := Fill.cons h
    obtain ⟨names, hlen, rfl⟩ := ih hrest
    exact ⟨t :: names, congrArg (· + 1) hlen, rfl⟩

theorem Fill.pairs {k : Nat} {l : List Value} (h : Fill tidy n s (.replicate (2 * k) .value) l) :
    ∃ pairs : List (Value × Value), pairs.length = k ∧ l = Exec.flatten pairs ∧
      ∀ p ∈ pairs, Exec.Good tidy n p.2 s := by
  induction k generalizing l with
  | zero =>
    cases l with
    | nil => exact ⟨[], rfl, rfl, fun p hp => absurd hp List.not_mem_nil⟩
    | cons => exact absurd h id
  | succ k ih =>
    obtain ⟨key, rest, rfl, -, hrest⟩ := Fill.cons h
    obtain ⟨v, rest, rfl, hv, hrest⟩ := Fill.cons hrest
    obtain ⟨pairs, hlen, rfl, hpairs⟩ := ih hrest
    refine ⟨(key, v) :: pairs, congrArg (· + 1) hlen, rfl, ?_⟩
    intro p hp
    rcases List.mem_cons.mp hp with rfl | hp
    · exact hv
    · exact hpairs p hp

theorem Fill.params {k : Nat} {l : List Value} (h : Fill tidy n s (Layout.params k) l) :
    ∃ params : List (Text × Value), params.length = k ∧
      l = Exec.flatten (params.map fun p => (.text p.1, p.2)) := by
  induction k generalizing l with
  | zero =>
    cases l with
    | nil => exact ⟨[], rfl, rfl⟩
    | cons => exact absurd h id
  | succ k ih =>
    obtain ⟨_, rest, rfl, ⟨t, rfl⟩, hrest⟩ := Fill.cons h
    obtain ⟨g, rest, rfl, -, hrest⟩ := Fill.cons hrest
    obtain ⟨params, hlen, rfl⟩ := ih hrest
    exact ⟨(t, g) :: params, congrArg (· + 1) hlen, rfl⟩

end Slot

/-!
# Activations and waiting work

A run in progress is described from its end inward. The outermost footing is the program itself, or a
moment, the floor, from which on a part of a run is watched.
-/

/-- What a level of a run stands on. -/
inductive Footing where
  /-- An activation on its ground, with its boundary frame; `inCall` says that it is a call. -/
  | active (g : Ground) (b : FrameId) (inCall : Bool)
  /-- Work that waits for an outcome, which will find the posture again. -/
  | waiting (q : Posture)

/-- What a run is judged by: its program with the layouts of its instructions, the natives, whether
the values are clean, the floor, if only a part of the run is watched, and whether natives never crash. -/
structure Regime where
  program : Program
  ops : Array Op
  ty : Nat → Layout
  library : Library
  tidy : Prop
  known : NativeInfo → Prop
  floor : Option (List Pending × Footing)
  calm : Prop
  strict : Prop

theorem Regime.floor_ne {r : Regime} (hfloor : r.floor = none) (floor : List Pending × Footing) :
    r.floor ≠ some floor := by
  rw [hfloor]
  exact fun h => by cases h

section
variable (r : Regime)

/-- The engine stands in an activation with the given layout. -/
structure Poised (s : Store) (g : Ground) (b : FrameId) (inCall : Bool) (a : Layout)
    (q : Posture) : Prop where
  stack : ∃ l, q.stack = l ++ g.stack ∧ Slot.Fill r.tidy r.known s a.slots l
  frame : ∃ f, q.frame = some f ∧ s.Above f a.scopes b
  captured : q.captured = g.captured
  calls : q.calls = g.calls
  natives : q.natives = g.natives
  live : a.live = true
  inCall : a.inCall = inCall

/-- The frame is a boundary and leads back to the caller. -/
def Store.LeadsBack (s : Store) (b : FrameId) (caller : Option FrameId) : Prop :=
  ∃ fr, s.frame? b = some fr ∧ fr.isBoundary = true ∧ fr.caller = caller

/-- The levels of a run, given by the pending work and the innermost footing. -/
inductive Stands (s : Store) : List Pending → Footing → Prop
  | floor {pending : List Pending} {footing : Footing} (h : r.floor = some (pending, footing)) :
    Stands s pending footing
  | top {b : FrameId} {fr : Frame} (h : r.floor = none) (hb : s.frame? b = some fr)
    (hkind : fr.isBoundary = true) : Stands s [] (.active ⟨[], #[], #[], #[]⟩ b false)
  | called {pending : List Pending} {g : Ground} {b b' : FrameId} {inCall : Bool} {a : Layout}
    {q : Posture} {i : Nat} {around : Option FrameId} (h : Stands s pending (.active g b inCall))
    (hq : Poised r s g b inCall a q) (hip : q.ip = i) (hi : i < r.ops.size)
    (hty : r.ty (i + 1) = a.push .value) (hb : s.LeadsBack b' q.frame) :
    Stands s pending (.active (q.ground around false) b' true)
  | nested {pending : List Pending} {b : FrameId} {q : Posture} {around : Option FrameId}
    (h : Stands s pending (.waiting q)) (hb : s.LeadsBack b q.frame) :
    Stands s (.nested q.snapshot :: pending) (.active (q.ground around true) b true)
  | instruction {pending : List Pending} {g : Ground} {b : FrameId} {inCall : Bool} {a : Layout}
    {q : Posture} {i : Nat} (h : Stands s pending (.active g b inCall))
    (hq : Poised r s g b inCall a q) (hip : q.ip = i) (hi : i < r.ops.size)
    (hty : r.ty (i + 1) = a.push .value) : Stands s (.instruction :: pending) (.waiting q)
  | construct {pending : List Pending} {q : Posture} {i : InstanceId}
    (h : Stands s pending (.waiting q)) :
    Stands s (.construct i :: pending) (.waiting (q.within Text.empty))
  | convert {pending : List Pending} {q : Posture} (h : Stands s pending (.waiting q)) :
    Stands s (.convert :: pending) (.waiting (q.within Text.empty))
  | native {pending : List Pending} {q : Posture} {info : NativeInfo}
    {resume : Except Fault Value → World → Action} {closures : Nat}
    (h : Stands s pending (.waiting q)) (hresume : ∀ o w, (resume o w).CallsOnly w.store)
    (hclosures : closures ≤ s.closures.size)
    (hproper : r.tidy → ∀ o w, closures ≤ w.store.closures.size → w.store.Neat r.strict r.known →
      w.store.AdmitsOutcome r.known o → (resume o w).Tidy r.calm r.strict r.known) :
    Stands s (.native info q.snapshot resume :: pending) (.waiting (q.within info.name))

end

section
variable {r : Regime} {s s' : Store} {pending : List Pending} {g : Ground} {b : FrameId}
  {inCall : Bool} {a : Layout} {q : Posture}

theorem Poised.extends (h : Poised r s g b inCall a q) (hs : s.Extends s') :
    Poised r s' g b inCall a q where
  stack := by
    obtain ⟨l, hstack, hfill⟩ := h.stack
    exact ⟨l, hstack, hfill.extends hs⟩
  frame := by
    obtain ⟨f, hframe, habove⟩ := h.frame
    exact ⟨f, hframe, habove.extends hs⟩
  captured := h.captured
  calls := h.calls
  natives := h.natives
  live := h.live
  inCall := h.inCall

theorem Poised.on (h : Poised r s g b inCall a q) : q.On g where
  stack := by
    obtain ⟨l, hstack, -⟩ := h.stack
    exact ⟨l, hstack.symm⟩
  captured := h.captured
  calls := h.calls
  natives := h.natives

theorem Store.LeadsBack.extends {caller : Option FrameId} (h : s.LeadsBack b caller)
    (hs : s.Extends s') : s'.LeadsBack b caller := by
  obtain ⟨fr, hb, hkind, hcaller⟩ := h
  obtain ⟨fr', hb', hkind', -⟩ := hs.frames b fr hb
  refine ⟨fr', hb', ?_, ?_⟩
  · unfold Frame.isBoundary at hkind ⊢
    rw [hkind']
    exact hkind
  · unfold Frame.caller at hcaller ⊢
    rw [hkind']
    exact hcaller

/-- The levels of a run outlive work on the store. -/
theorem Stands.extends {footing : Footing} (h : Stands r s pending footing)
    (hs : s.Extends s') : Stands r s' pending footing := by
  induction h with
  | floor h => exact .floor h
  | top h hb hkind =>
    obtain ⟨fr', hb', hkind', -⟩ := hs.frames _ _ hb
    refine .top h hb' ?_
    unfold Frame.isBoundary at hkind ⊢
    rw [hkind']
    exact hkind
  | called _ hq hip hi hty hb ih => exact .called ih (hq.extends hs) hip hi hty (hb.extends hs)
  | nested _ hb ih => exact .nested ih (hb.extends hs)
  | instruction _ hq hip hi hty ih => exact .instruction ih (hq.extends hs) hip hi hty
  | construct _ ih => exact .construct ih
  | convert _ ih => exact .convert ih
  | native _ hresume hclosures hproper ih =>
    exact .native ih hresume (Nat.le_trans hclosures hs.size_closures) hproper

/-- An activation that is no call is the program itself. -/
theorem Stands.notInCall (h : Stands r s pending (.active g b false))
    (hstay : r.floor ≠ some (pending, .active g b false)) :
    pending = [] ∧ r.floor = none ∧ g = ⟨[], #[], #[], #[]⟩ := by
  cases h with
  | floor h => exact absurd h hstay
  | top h => exact ⟨rfl, h, rfl⟩

/-- Where a failure in an activation goes: out of the run, or to the work that entered the outermost
call of this run, whose posture lies below everything since. -/
theorem Stands.unwind (h : Stands r s pending (.active g b inCall))
    (hstay : ∀ footing, r.floor ≠ some (pending, footing)) :
    (pending = [] ∧ r.floor = none) ∨ ∃ q rest, pending = .nested q.snapshot :: rest ∧
      Stands r s rest (.waiting q) ∧ q.stack <:+ g.stack ∧
      q.captured.toList <+: g.captured.toList ∧ q.calls.toList <+: g.calls.toList ∧
      g.natives = q.natives := by
  generalize hfooting : Footing.active g b inCall = footing at h
  induction h generalizing g b inCall with
  | floor h => exact absurd h (hstay _)
  | top h => exact Or.inl ⟨rfl, h⟩
  | @called pending g₀ b₀ _ inCall₀ a q i around _ hq _ _ _ _ ih =>
    cases hfooting
    rcases @ih g₀ b₀ inCall₀ hstay rfl with hout | ⟨q', rest, hpending, hwaits, hstack, hcap, hcalls, hnat⟩
    · exact Or.inl hout
    · refine Or.inr ⟨q', rest, hpending, hwaits, ?_, ?_, ?_, ?_⟩
      · exact hstack.trans hq.on.stack
      · show q'.captured.toList <+: (q.captured.push around).toList
        rw [hq.captured, Array.toList_push]
        exact hcap.trans (List.prefix_append _ _)
      · show q'.calls.toList <+: (q.calls.push _).toList
        rw [hq.calls, Array.toList_push]
        exact hcalls.trans (List.prefix_append _ _)
      · exact hq.natives.trans hnat
  | @nested pending _ q around h _ _ =>
    cases hfooting
    refine Or.inr ⟨q, pending, rfl, h, List.suffix_refl _, ?_, ?_, rfl⟩
    · show q.captured.toList <+: (q.captured.push around).toList
      rw [Array.toList_push]
      exact List.prefix_append _ _
    · show q.calls.toList <+: (q.calls.push _).toList
      rw [Array.toList_push]
      exact List.prefix_append _ _
  | instruction => cases hfooting
  | construct => cases hfooting
  | convert => cases hfooting
  | native => cases hfooting

end
end ScriptEngine
