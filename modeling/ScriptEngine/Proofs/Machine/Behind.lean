import ScriptEngine.Proofs.Native.Conduct

/-!
# Work behind a past

Two things are said of work of the engine at once. Done by an engine all of whose values are in scope,
it leaves such an engine, and the store changes in the ways that are known. And done behind a past, it
does what it does without one, with shifted objects.
-/

namespace ScriptEngine

/-- What is known of an engine: its library, how natives change stores, what is lent, and the past
that it is put behind. `twin` says that the engine is to be compared with itself behind the past. -/
structure Law where
  library : Library
  native : Store → Store → Prop
  tends : ∀ s s', native s s' → s.Tends s'
  heeds : library.Heeds native
  lent : FrameId → Text → Value → Prop
  past : Past
  twin : Prop
  inert : twin → library.bindings.Every Value.Inert
  stateless : twin → library.Stateless

/-- The store changes in the ways that are known. -/
def Law.Changes (law : Law) (s s' : Store) : Prop :=
  s.Changes law.native law.lent s'

/-- Every value of the engine is in scope, and its constants are no objects. -/
structure Machine.Sound (law : Law) (m : Machine) : Prop where
  store : m.world.store.Scoped
  library : m.library = law.library
  bindings : m.library.bindings.Every m.world.store.Has
  slots : ∀ v ∈ m.stack.slots, m.world.store.Has v
  backed : m.stack.Backed
  depths : ∀ record ∈ m.calls, record.depth ≤ m.stack.slots.size
  frame : m.world.store.HasFrame m.frame
  constants : ∀ op ∈ m.ops, ∀ v, op = .push v → v.Inert

/-- What work leads to. -/
structure Machine.Onward (law : Law) (m m' : Machine) : Prop where
  sound : m'.Sound law
  store : law.Changes m.world.store m'.world.store

namespace Machine

variable {law : Law} {m m' m'' : Machine} {v : Value}

theorem Sound.onward (h : m.Sound law) : m.Onward law m :=
  ⟨h, .refl⟩

theorem Onward.trans (h : m.Onward law m') (h' : m'.Onward law m'') : m.Onward law m'' :=
  ⟨h'.sound, h.store.trans h'.store⟩

theorem Onward.le (h : m.Onward law m') : m.world.store.Le m'.world.store :=
  Store.Changes.le law.tends h.store

theorem Sound.withStore (h : m.Sound law) {s : Store} (hs : law.Changes m.world.store s) :
    (m.withStore s).Sound law where
  store := Store.Changes.scoped law.tends hs h.store
  library := h.library
  bindings := h.bindings.imp fun _ hv => hv.mono (Store.Changes.le law.tends hs)
  slots v hv := (h.slots v hv).mono (Store.Changes.le law.tends hs)
  backed := h.backed
  depths := h.depths
  frame := h.frame.mono (Store.Changes.le law.tends hs)
  constants := h.constants

theorem Sound.push (h : m.Sound law) (hv : m.world.store.Has v) :
    (m.withStack (m.stack.push v)).Sound law := by
  have hsize : m.stack.slots.size ≤ (m.stack.push v).slots.size := by
    unfold OperandStack.push
    split
    · exact Nat.le_of_eq Array.size_setIfInBounds.symm
    · exact Store.size_le_push _ _
  have hslots : ∀ w ∈ (m.stack.push v).slots, m.world.store.Has w := by
    intro w hw
    unfold OperandStack.push at hw
    split at hw
    · rcases Array.mem_or_eq_of_mem_setIfInBounds hw with hw | rfl
      · exact h.slots w hw
      · exact hv
    · rcases Array.mem_push.mp hw with hw | rfl
      · exact h.slots w hw
      · exact hv
  exact { h with
    slots := hslots
    backed := OperandStack.backed_push h.backed v
    depths := fun record hrecord => Nat.le_trans (h.depths record hrecord) hsize }

/-- The height of the stack matters only in that there are slots for it. -/
theorem Sound.cut (h : m.Sound law) {n : Nat} (hn : n ≤ m.stack.slots.size) :
    (m.withStack (m.stack.cut n)).Sound law :=
  { h with backed := hn }

theorem Sound.tell (h : m.Sound law) (level : Level) (text : Machine → Text) :
    (m.tell level text).Sound law := by
  unfold Machine.tell
  split
  · exact { h with }
  · exact h

theorem store_tell (m : Machine) (level : Level) (text : Machine → Text) :
    (m.tell level text).world.store = m.world.store := by
  unfold Machine.tell
  split <;> rfl

end Machine

namespace Exec

/-- The result of work behind a past. -/
def shifted {α : Type} (past : Past) (ρ : α → α) :
    EStateM.Result Stop Machine α → EStateM.Result Stop Machine α
  | .ok a m => .ok (ρ a) (m.shift past)
  | .error e m => .error e (m.shift past)

/-- The work leads onward, its result has the property, and behind the past the other work does the
same; `ρ` says how results are shifted. -/
structure Fares {α : Type} (law : Law) (ρ : α → α) (x x' : Exec α) (m : Machine)
    (P : α → Machine → Prop) : Prop where
  sound : match x m with
    | .ok a m' => m.Onward law m' ∧ P a m'
    | .error _ m' => m.Onward law m'
  same : law.twin → x' (m.shift law.past) = shifted law.past ρ (x m)

section
variable {α β : Type} {law : Law} {m : Machine} {ρ : α → α} {σ : β → β}

namespace Fares

theorem bind {x x' : Exec α} {k k' : α → Exec β} {P : α → Machine → Prop} {Q : β → Machine → Prop}
    (hx : Fares law ρ x x' m P)
    (hk : ∀ a m', x m = .ok a m' → m.Onward law m' → P a m' → Fares law σ (k a) (k' (ρ a)) m' Q) :
    Fares law σ (x >>= k) (x' >>= k') m Q := by
  obtain ⟨hsound, hsame⟩ := hx
  cases hrun : x m with
  | ok a m' =>
    rw [hrun] at hsound hsame
    obtain ⟨hnext, hnext'⟩ := hk a m' hrun hsound.1 hsound.2
    refine ⟨?_, fun ht => ?_⟩
    · rw [bind_of_ok hrun]
      generalize k a m' = r at hnext
      cases r with
      | ok b m'' => exact ⟨hsound.1.trans hnext.1, hnext.2⟩
      | error e m'' => exact hsound.1.trans hnext
    · rw [bind_of_ok (hsame ht), bind_of_ok hrun]
      exact hnext' ht
  | error e m' =>
    rw [hrun] at hsound hsame
    refine ⟨?_, fun ht => ?_⟩
    · rw [bind_of_error hrun]
      exact hsound
    · rw [bind_of_error (hsame ht), bind_of_error hrun]
      rfl

theorem imp {x x' : Exec α} {P Q : α → Machine → Prop} (hx : Fares law ρ x x' m P)
    (h : ∀ a m', m.Onward law m' → P a m' → Q a m') : Fares law ρ x x' m Q := by
  refine ⟨?_, hx.same⟩
  have hsound := hx.sound
  generalize x m = r at hsound
  cases r with
  | ok a m' => exact ⟨hsound.1, h a m' hsound.1 hsound.2⟩
  | error e m' => exact hsound

theorem pure {a : α} {P : α → Machine → Prop} (hm : m.Sound law) (hP : P a m) :
    Fares law ρ (Pure.pure a) (Pure.pure (ρ a)) m P :=
  ⟨⟨hm.onward, hP⟩, fun _ => rfl⟩

theorem raise {f : Failure} {message : Text} {P : α → Machine → Prop} (hm : m.Sound law) :
    Fares law ρ (Exec.raise f message) (Exec.raise f message) m P :=
  ⟨hm.onward, fun _ => rfl⟩

theorem crash {message : Text} {P : α → Machine → Prop} (hm : m.Sound law) :
    Fares law ρ (Exec.crash message) (Exec.crash message) m P :=
  ⟨hm.onward, fun _ => rfl⟩

/-- What is read is known, and so is what is read behind the past. -/
theorem reads {f f' : Machine → α} {k k' : α → Exec β} {Q : β → Machine → Prop}
    (hf : law.twin → f' (m.shift law.past) = ρ (f m))
    (hk : Fares law σ (k (f m)) (k' (ρ (f m))) m Q) :
    Fares law σ (Exec.reads f >>= k) (Exec.reads f' >>= k') m Q := by
  refine ⟨hk.sound, fun ht => ?_⟩
  show k' (f' (m.shift law.past)) (m.shift law.past) = _
  rw [hf ht]
  exact hk.same ht

/-- Work on the store. -/
theorem onStore {f f' : Store → α × Store} {P : α → Machine → Prop} (hm : m.Sound law)
    (hs : law.Changes m.world.store (f m.world.store).2)
    (hP : P (f m.world.store).1 (m.withStore (f m.world.store).2))
    (hf : f' (law.past.store.shift m.world.store) =
      (ρ (f m.world.store).1, law.past.store.shift (f m.world.store).2)) :
    Fares law ρ (Exec.onStore f) (Exec.onStore f') m P := by
  refine ⟨⟨⟨hm.withStore hs, hs⟩, hP⟩, fun _ => ?_⟩
  have hrun : ∀ (g : Store → α × Store) (m : Machine),
      Exec.onStore g m = .ok (g m.world.store).1 (m.withStore (g m.world.store).2) := fun _ _ => rfl
  rw [hrun, hrun]
  show EStateM.Result.ok (f' (law.past.store.shift m.world.store)).1
    ((m.shift law.past).withStore (f' (law.past.store.shift m.world.store)).2) = _
  rw [hf]
  rfl

/-- A change of the engine. -/
theorem change {g g' : Machine → Machine} {P : Unit → Machine → Prop} (hg : m.Onward law (g m))
    (hP : P () (g m)) (hsame : g' (m.shift law.past) = (g m).shift law.past) :
    Fares law id (modify g) (modify g') m P := by
  refine ⟨⟨hg, hP⟩, fun _ => ?_⟩
  show EStateM.Result.ok () (g' (m.shift law.past)) = .ok () ((g m).shift law.past)
  rw [hsame]

end Fares
end

/-!
# Operands
-/

section
variable {α : Type} {law : Law} {m : Machine} {v : Value}

theorem fares_push (hm : m.Sound law) (hv : m.world.store.Has v) :
    Fares law id (push v) (push (v.shift law.past.store)) m
      fun _ m' => m' = m.withStack (m.stack.push v) := by
  refine .change ⟨hm.push hv, .refl⟩ rfl ?_
  show (m.shift law.past).withStack ((m.stack.shift law.past).push _) = _
  rw [OperandStack.push_shift hm.backed]
  rfl

theorem has_top (hm : m.Sound law) (h : m.stack.top? = some v) : m.world.store.Has v := by
  unfold OperandStack.top? at h
  split at h
  · cases h
  · exact hm.slots v (Array.mem_of_getElem? h)

theorem fares_top (hm : m.Sound law) :
    Fares law (Value.shift law.past.store) top top m fun v m' => m' = m ∧ m.world.store.Has v := by
  have hshift : (m.shift law.past).stack.top? = m.stack.top?.map (Value.shift law.past.store) :=
    OperandStack.top?_shift hm.backed
  unfold top
  cases hv : m.stack.top? with
  | none =>
    rw [hv] at hshift
    refine ⟨?_, fun _ => ?_⟩
    · simp only [hv]
      exact hm.onward
    · simp only [hv, hshift]
      rfl
  | some v =>
    rw [hv] at hshift
    refine ⟨?_, fun _ => ?_⟩
    · simp only [hv]
      exact ⟨hm.onward, trivial, has_top hm hv⟩
    · simp only [hv, hshift]
      rfl

theorem fares_pop (hm : m.Sound law) :
    Fares law (Value.shift law.past.store) pop pop m
      fun v m' => m' = m.withStack m.stack.drop ∧ m.world.store.Has v := by
  have hshift : (m.shift law.past).stack.top? = m.stack.top?.map (Value.shift law.past.store) :=
    OperandStack.top?_shift hm.backed
  unfold pop
  cases hv : m.stack.top? with
  | none =>
    rw [hv] at hshift
    refine ⟨?_, fun _ => ?_⟩
    · simp only [hv]
      exact hm.onward
    · simp only [hv, hshift]
      rfl
  | some v =>
    rw [hv] at hshift
    refine ⟨?_, fun _ => ?_⟩
    · simp only [hv]
      exact ⟨⟨{ hm with backed := OperandStack.backed_drop hm.backed }, .refl⟩, rfl, has_top hm hv⟩
    · simp only [hv, hshift]
      rfl

/-- A copy is in scope and bound to no name, and nothing in scope before was it. -/
theorem fares_copy (hm : m.Sound law) (hv : m.world.store.Has v) :
    Fares law (Value.shift law.past.store) (copy v) (copy (v.shift law.past.store)) m fun a m' =>
      m'.world.store.frames = m.world.store.frames ∧ m'.world.store.Has a ∧
        (a.isHandle = true → ¬ m.world.store.Has a) := by
  obtain ⟨hhas, hhandle, hnew, -⟩ := Store.copy_spec hv
  have hframes : (m.world.store.copy v).2.frames = m.world.store.frames := by
    unfold Store.copy
    split <;> first | rfl | (split <;> rfl)
  have hstore : Fares law (Value.shift law.past.store) (onStore fun s => s.copy v)
      (onStore fun s => s.copy (v.shift law.past.store)) m fun a m' =>
      m'.world.store.frames = m.world.store.frames ∧ m'.world.store.Has a ∧
        (a.isHandle = true → ¬ m.world.store.Has a) :=
    .onStore hm (.copy hm.store v) ⟨hframes, hhas, fun h => hnew (hhandle ▸ h)⟩
      (Store.copy_shift hv)
  cases v with
  | list | dict | closure | inst => exact hstore
  | _ => exact .pure hm ⟨rfl, hv, fun h => by cases h⟩

theorem typeName_shift (m : Machine) (v : Value) :
    (m.shift law.past).world.store.typeName (v.shift law.past.store) = m.world.store.typeName v :=
  Store.typeName_shift _ _ v

/-- A failure that names the type of a value. -/
theorem fares_raise_typeName {ρ : α → α} {P : α → Machine → Prop} (hm : m.Sound law) (v : Value)
    (f : Failure) (message : Text → Text) :
    Fares law ρ (typeName v >>= fun t => raise f (message t))
      (typeName (v.shift law.past.store) >>= fun t => raise f (message t)) m P :=
  .reads (ρ := id) (fun _ => typeName_shift m v) (.raise hm)

theorem fares_popCount (hm : m.Sound law) :
    Fares law id popCount popCount m fun _ m' => m'.world.store = m.world.store := by
  refine (fares_pop hm).bind ?_
  rintro v m' - hon ⟨rfl, -⟩
  cases v with
  | number x =>
    simp only [Value.shift]
    split
    · exact .crash hon.sound
    · exact .pure hon.sound rfl
  | _ => exact .crash hon.sound

theorem fares_checkCount (hm : m.Sound law) (n : Int) :
    Fares law id (checkCount n) (checkCount n) m fun _ m' => m' = m := by
  unfold checkCount
  split
  · exact .crash hm
  · exact .pure hm rfl

theorem fares_condition (hm : m.Sound law) (v : Value) :
    Fares law id (condition v) (condition (v.shift law.past.store)) m fun _ m' => m' = m := by
  cases v with
  | boolean b => exact .pure hm rfl
  | _ => exact fares_raise_typeName hm _ _ _

/-!
# Arguments
-/

/-- The values are in scope, and those that are objects are different objects, which no name is bound
to. -/
structure Fresh (s : Store) (args : List Value) : Prop where
  has : ∀ v ∈ args, s.Has v
  unbound : ∀ v ∈ args, v.isHandle = true → s.Unbound v
  distinct : args.Pairwise fun v w => v.isHandle = true → v ≠ w

theorem Fresh.nil {s : Store} : Fresh s [] :=
  ⟨fun _ h => absurd h List.not_mem_nil, fun _ h => absurd h List.not_mem_nil, .nil⟩

theorem Fresh.of_frames {s s' : Store} {args : List Value} (h : Fresh s args) (hle : s.Le s')
    (hframes : s'.frames = s.frames) : Fresh s' args where
  has v hv := (h.has v hv).mono hle
  unbound v hv hhandle f name hold := h.unbound v hv hhandle f name (Store.holds_of_frames hframes hold)
  distinct := h.distinct

theorem fares_popCopies (hm : m.Sound law) (n : Nat) {acc : List Value}
    (hacc : Fresh m.world.store acc) :
    Fares law (List.map (Value.shift law.past.store)) (popCopies n acc)
      (popCopies n (acc.map (Value.shift law.past.store))) m fun args m' =>
        m'.world.store.frames = m.world.store.frames ∧ Fresh m'.world.store args := by
  induction n generalizing m acc with
  | zero => exact .pure hm ⟨rfl, hacc⟩
  | succ n ih =>
    refine (fares_pop hm).bind ?_
    rintro v m₁ - hon₁ ⟨rfl, hv⟩
    refine (fares_copy hon₁.sound hv).bind ?_
    rintro a m₂ - hon₂ ⟨hframes, ha, hnew⟩
    have hold := hacc.of_frames hon₂.le hframes
    have hfresh : Fresh m₂.world.store (a :: acc) := by
      refine ⟨?_, ?_, List.pairwise_cons.mpr ⟨?_, hold.distinct⟩⟩
      · intro w hw
        rcases List.mem_cons.mp hw with rfl | hw
        · exact ha
        · exact hold.has w hw
      · intro w hw hhandle
        rcases List.mem_cons.mp hw with rfl | hw
        · exact fun f name h =>
            hnew hhandle ((Store.holds_of_frames hframes h).has hon₁.sound.store)
        · exact hold.unbound w hw hhandle
      · rintro w hw hhandle rfl
        exact hnew hhandle (hacc.has a hw)
    refine (ih hon₂.sound hfresh).imp ?_
    rintro args m₃ - ⟨hframes', hargs⟩
    exact ⟨hframes'.trans hframes, hargs⟩

theorem fares_popArgs (hm : m.Sound law) :
    Fares law (List.map (Value.shift law.past.store)) popArgs popArgs m fun args m' =>
      m'.world.store.frames = m.world.store.frames ∧ Fresh m'.world.store args := by
  refine (fares_popCount hm).bind ?_
  rintro n m₁ - hon₁ hstore
  refine (fares_checkCount hon₁.sound n).bind ?_
  rintro n m₂ - hon₂ rfl
  rw [← hstore]
  exact fares_popCopies hon₂.sound n .nil

/-!
# Members
-/

theorem has_resolve (hm : m.Sound law) {name : Text} (h : m.resolve name = some v) :
    m.world.store.Has v := by
  unfold Machine.resolve at h
  split at h
  · rename_i found owner hfound
    cases h
    exact hm.store.lookup hfound
  · exact hm.bindings.get? h

theorem resolve_shift (hm : m.Sound law) (ht : law.twin) (name : Text) :
    (m.shift law.past).resolve name = (m.resolve name).map (Value.shift law.past.store) :=
  Machine.resolve_shift hm.store (hm.library ▸ law.inert ht) name

theorem fares_bind {method receiver : Value} (hm : m.Sound law) (hmethod : m.world.store.Has method)
    (hreceiver : m.world.store.Has receiver) :
    Fares law (Value.shift law.past.store) (Exec.bind method receiver)
      (Exec.bind (method.shift law.past.store) (receiver.shift law.past.store)) m
      fun a m' => m'.world.store.Has a := by
  cases method with
  | closure c =>
    obtain ⟨cl, hc⟩ : ∃ cl, m.world.store.closure? c = some cl := ⟨_, Array.getElem?_eq_getElem hmethod⟩
    unfold Exec.bind
    refine .onStore hm ?_ ?_ ?_
    · simp only [hc]
      refine Store.Change.once ?_
      refine .closure (fun r hr => ?_) ?_
      · cases hr
        exact hreceiver
      · exact (hm.store.closure hc).2
    · simp only [hc]
      exact Store.size_lt_push _ _
    · simp only [Store.closure?_shift, hc, Option.map_some]
      have hnew := Store.newClosure_shift law.past.store m.world.store { cl with receiver := some receiver }
      exact congrArg (fun r : ClosureId × Store => (Value.closure r.1, r.2)) hnew
  | native info => exact .pure hm hreceiver
  | bound info r => exact .pure hm hreceiver
  | _ => exact .pure hm hmethod

theorem fares_ownMember {object : Value} (hm : m.Sound law) (hobject : m.world.store.Has object)
    (key : Value) :
    Fares law (Option.map (Value.shift law.past.store)) (ownMember object key)
      (ownMember (object.shift law.past.store) (key.shift law.past.store)) m
      fun a m' => m' = m ∧ ∀ v, a = some v → m.world.store.Has v := by
  have hnone : Fares law (Option.map (Value.shift law.past.store)) (pure none) (pure none) m
      fun a m' => m' = m ∧ ∀ v, a = some v → m.world.store.Has v :=
    .pure hm ⟨rfl, fun _ h => by cases h⟩
  have hread : ∀ {f f' : Machine → Option Value},
      f' (m.shift law.past) = (f m).map (Value.shift law.past.store) →
      (∀ v, f m = some v → m.world.store.Has v) →
      Fares law (Option.map (Value.shift law.past.store)) (reads f) (reads f') m
        fun a m' => m' = m ∧ ∀ v, a = some v → m.world.store.Has v := by
    intro f f' hf hv
    refine ⟨⟨hm.onward, rfl, hv⟩, fun _ => ?_⟩
    show EStateM.Result.ok (f' (m.shift law.past)) (m.shift law.past) = _
    rw [hf]
    rfl
  cases object with
  | dict d =>
    cases key with
    | text k =>
      refine hread ?_ fun v hv => (hm.store.dict d).get? hv
      show ((law.past.store.shift m.world.store).dict (law.past.store.dicts.size + d)).get? k = _
      rw [Store.dict_shift, Table.get?_mapValues]
    | _ => exact hnone
  | inst i =>
    cases key with
    | text k => exact hread (Store.field?_shift _ _ i k) fun v hv => hm.store.field hv
    | _ => exact hnone
  | list l =>
    cases key with
    | number x =>
      refine .reads (ρ := id) (fun _ => Store.listSize_shift hobject) ?_
      simp only [Value.shift, id]
      split
      · rename_i i _
        refine .reads (ρ := Value.shift law.past.store) (fun _ => Store.listGet_shift hobject i) ?_
        refine .pure hm ⟨rfl, fun v hv => ?_⟩
        cases hv
        exact hm.store.listGet l i
      · exact .raise hm
    | _ => exact hnone
  | _ => exact hnone

theorem fares_method {object : Value} (hm : m.Sound law) (hobject : m.world.store.Has object)
    (key : Value) :
    Fares law (Option.map (Value.shift law.past.store)) (method object key)
      (method (object.shift law.past.store) (key.shift law.past.store)) m
      fun a m' => ∀ v, a = some v → m'.world.store.Has v := by
  cases key with
  | text k =>
    refine .reads (ρ := Option.map (Value.shift law.past.store)) (fun ht => ?_) ?_
    · rw [resolve_shift hm ht, typeName_shift]
    cases hfound : m.resolve (Key.join k (m.world.store.typeName object)) with
    | none => exact .pure hm fun _ h => by cases h
    | some found =>
      refine (fares_bind hm (has_resolve hm hfound) hobject).bind ?_
      intro a m' _ hon ha
      refine .pure hon.sound fun v hv => ?_
      cases hv
      exact ha
  | _ => exact .pure hm fun _ h => by cases h

theorem repr_shift (hm : m.Sound law) (hv : m.world.store.Has v) :
    (m.shift law.past).world.store.repr (v.shift law.past.store) = m.world.store.repr v :=
  Store.repr_shift hm.store hv

theorem fares_member {object key : Value} (hm : m.Sound law) (hobject : m.world.store.Has object)
    (hkey : m.world.store.Has key) :
    Fares law (Value.shift law.past.store) (member object key)
      (member (object.shift law.past.store) (key.shift law.past.store)) m
      fun a m' => m'.world.store.Has a := by
  refine (fares_ownMember hm hobject key).bind ?_
  rintro own m₁ - hon₁ ⟨rfl, hown⟩
  cases own with
  | some v => exact .pure hm (hown v rfl)
  | none =>
    refine (fares_method hm hobject key).bind ?_
    intro found m₂ _ hon₂ hfound
    cases found with
    | some v => exact .pure hon₂.sound (hfound v rfl)
    | none =>
      refine .reads (ρ := id) (fun _ => repr_shift hon₂.sound (hkey.mono hon₂.le)) ?_
      exact fares_raise_typeName hon₂.sound object _ _

theorem index?_shift (p : Store) (v : Value) (n : Nat) : (v.shift p).index? n = v.index? n := by
  cases v <;> rfl

/-- Writing into the store. -/
theorem fares_write {f f' : Store → Store} (hm : m.Sound law)
    (hs : law.Changes m.world.store (f m.world.store))
    (hf : f' (law.past.store.shift m.world.store) = law.past.store.shift (f m.world.store)) :
    Fares law id (onStore fun s => ((), f s)) (onStore fun s => ((), f' s)) m fun _ _ => True :=
  .onStore hm hs trivial (congrArg (Prod.mk ()) hf)

theorem fares_setMember {target key value : Value} (hm : m.Sound law)
    (htarget : m.world.store.Has target) (hkey : m.world.store.Has key)
    (hvalue : m.world.store.Has value) :
    Fares law id (setMember target key value)
      (setMember (target.shift law.past.store) (key.shift law.past.store)
        (value.shift law.past.store)) m fun _ _ => True := by
  cases target with
  | dict d =>
    cases key with
    | text k =>
      unfold setMember
      refine fares_write hm ?_ ?_
      · exact (Store.Change.insert d k hvalue).once
      · exact Store.insertDict_shift _ _ d k value
    | _ => exact fares_raise_typeName hm _ _ _
  | list l =>
    refine .reads (ρ := id) (fun _ => Store.listSize_shift htarget) ?_
    simp only [index?_shift, id]
    split
    · rename_i i _
      refine fares_write hm ?_ ?_
      · exact (Store.Change.set l i hvalue).once
      · exact Store.listSet_shift htarget i value
    · exact .reads (ρ := id) (fun _ => repr_shift hm hkey) (.raise hm)
  | inst i =>
    refine .reads (ρ := id) (fun _ => typeName_shift m (.inst i)) ?_
    cases key with
    | text k =>
      refine .reads (ρ := Option.map (Value.shift law.past.store))
        (fun _ => Store.field?_shift _ _ i k) ?_
      cases m.world.store.field? i k with
      | some old =>
        refine fares_write hm ?_ ?_
        · exact (Store.Change.field i k hvalue).once
        · exact Store.setField_shift _ _ i k value
      | none => exact .raise hm
    | _ => exact .reads (ρ := id) (fun _ => repr_shift hm hkey) (.raise hm)
  | _ => exact fares_raise_typeName hm _ _ _

/-!
# Assignment
-/

theorem fares_nameClosure (hm : m.Sound law) (v : Value) (name : Text) :
    Fares law id (nameClosure v name) (nameClosure (v.shift law.past.store) name) m
      fun _ m' => m'.world.store.frames = m.world.store.frames := by
  cases v with
  | closure c =>
    unfold nameClosure
    refine .onStore hm ?_ ?_ ?_
    · exact (Store.Change.name c name).once
    · rfl
    · exact congrArg (Prod.mk ()) (Store.nameClosure_shift _ _ c name)
  | _ => exact .pure hm rfl

theorem fares_bindName {scope : Scope} {name : Text} (hm : m.Sound law) (hv : m.world.store.Has v)
    (hnew : v.isHandle = true → m.world.store.Unbound v) :
    Fares law id (bindName scope name v) (bindName scope name (v.shift law.past.store)) m
      fun _ _ => True := by
  refine .reads (ρ := shiftFrame law.past.store) (fun _ => rfl) ?_
  cases m.frame with
  | none => exact .crash hm
  | some f =>
    cases scope with
    | inner =>
      refine fares_write hm ?_ ?_
      · exact (Store.Change.bind f name hv hnew).once
      · exact Store.define_shift _ _ f name v
    | nearest =>
      refine fares_write hm ?_ ?_
      · exact Store.Changes.setNearest hv hnew f name
      · exact Store.setNearest_shift hm.store f name v
    | outer =>
      refine fares_write hm ?_ ?_
      · exact Store.Changes.setOuter hv hnew f name
      · exact Store.setOuter_shift hm.store f name v

theorem fares_assign (hm : m.Sound law) (scope : Scope) :
    Fares law id (assign scope) (assign scope) m fun _ _ => True := by
  refine (fares_pop hm).bind ?_
  rintro name m₁ - hon₁ ⟨rfl, hname⟩
  refine (fares_pop hon₁.sound).bind ?_
  rintro target m₂ - hon₂ ⟨rfl, htarget⟩
  refine (fares_pop hon₂.sound).bind ?_
  rintro value m₃ - hon₃ ⟨rfl, hvalue⟩
  refine (fares_copy hon₃.sound hvalue).bind ?_
  rintro copied m₄ - hon₄ ⟨hframes, hcopied, hnew⟩
  have hmember : Fares law id (setMember target name copied >>= fun _ => push copied)
      (setMember (target.shift law.past.store) (name.shift law.past.store)
        (copied.shift law.past.store) >>= fun _ => push (copied.shift law.past.store)) m₄
      fun _ _ => True := by
    refine (fares_setMember hon₄.sound (htarget.mono hon₄.le) (hname.mono hon₄.le) hcopied).bind ?_
    rintro _ m₅ - hon₅ -
    exact (fares_push hon₅.sound (hcopied.mono hon₅.le)).imp fun _ _ _ _ => trivial
  cases target with
  | empty =>
    cases name with
    | text key =>
      refine (fares_nameClosure hon₄.sound copied key).bind ?_
      rintro _ m₅ - hon₅ hframes'
      have hunbound : copied.isHandle = true → m₅.world.store.Unbound copied :=
        fun hhandle f other h => hnew hhandle
          ((Store.holds_of_frames (hframes'.trans hframes) h).has hon₃.sound.store)
      refine (fares_bindName hon₅.sound (hcopied.mono hon₅.le) hunbound).bind ?_
      rintro _ m₆ - hon₆ -
      exact (fares_push hon₆.sound ((hcopied.mono hon₅.le).mono hon₆.le)).imp fun _ _ _ _ => trivial
    | _ => exact .crash hon₄.sound
  | _ => exact hmember

theorem fares_bump (hm : m.Sound law) (name : Text) (up : Bool) :
    Fares law id (bump name up) (bump name up) m fun _ _ => True := by
  refine .reads (fun _ => Store.lookup_shift hm.store m.frame name false) ?_
  cases m.world.store.lookup m.frame name false with
  | none => exact .raise hm
  | some found =>
    obtain ⟨v, owner⟩ := found
    cases v with
    | number x =>
      refine fares_write hm ?_ ?_
      · refine (Store.Change.bind owner name ?_ ?_).once
        · trivial
        · exact fun h => by cases h
      · exact Store.define_shift _ _ owner name (.number _)
    | _ => exact fares_raise_typeName hm _ _ _

end
end Exec
end ScriptEngine
