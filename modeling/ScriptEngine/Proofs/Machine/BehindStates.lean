import Mathlib.Data.List.Forall2
import ScriptEngine.Proofs.Machine.BehindSteps

/-!
# States behind a past

A state of a run is its engine, the work that waits and what it does next. Each transition of the
states below keeps everything in scope and does behind a past what it does without one; here for the
steps that execute an instruction or convert a value.
-/

namespace ScriptEngine

/-!
# Conversions and new instances
-/

namespace Exec

section
variable {law : Law} {m : Machine} {v : Value}

theorem fares_cannotConvert (hm : m.Sound law) (v : Value) (target : Text) :
    Fares law (Value.shift law.past.store) (effect (Native.cannotConvert v target))
      (effect (Native.cannotConvert (v.shift law.past.store) target)) m
      fun a m' => m'.world.store.Has a := by
  unfold Native.cannotConvert
  rw [effect_bind, effect_bind]
  exact .reads (ρ := id) (fun _ => typeName_shift m v) (.raise hm)

/-- A list of values that are no objects. -/
theorem fares_inertList (hm : m.Sound law) {items : Array Value} (hitems : ∀ v ∈ items, v.Inert)
    (capacity : Nat) :
    Fares law (Value.shift law.past.store)
      (onStore fun s => (Value.list (s.newListIn items capacity).1, (s.newListIn items capacity).2))
      (onStore fun s => (Value.list (s.newListIn items capacity).1, (s.newListIn items capacity).2)) m
      fun a m' => m'.world.store.Has a := by
  have hsame : items.map (Value.shift law.past.store) = items :=
    (Array.map_congr_left fun v hv => Value.shift_inert (hitems v hv) _).trans (Array.map_id' items)
  refine .onStore hm ?_ ?_ ?_
  · exact Store.Change.once (.list (fun v hv => Store.Has.inert (hitems v hv)) capacity)
  · exact Store.size_lt_push _ _
  · have hnew := Store.newListIn_shift law.past.store m.world.store items capacity
    rw [hsame] at hnew
    exact congrArg (fun r : ListId × Store => (Value.list r.1, r.2)) hnew

theorem fares_fieldDict (hm : m.Sound law) (i : InstanceId) :
    Fares law (Value.shift law.past.store) (effect (Native.fieldDict i))
      (effect (Native.fieldDict (law.past.store.instances.size + i))) m
      fun a m' => m'.world.store.Has a := by
  have hfield : ∀ f : Text, m.world.store.Has ((m.world.store.field? i f).getD .null) := by
    intro f
    cases hf : m.world.store.field? i f with
    | none => trivial
    | some v => exact hm.store.field hf
  have hfields : ((law.past.store.shift m.world.store).instanceType
        (law.past.store.instances.size + i)).fields.map (fun f =>
        (f, ((law.past.store.shift m.world.store).field? (law.past.store.instances.size + i) f).getD .null)) =
      ((m.world.store.instanceType i).fields.map fun f =>
        (f, (m.world.store.field? i f).getD .null)).map fun e => (e.1, e.2.shift law.past.store) := by
    rw [Store.instanceType_shift, List.map_map]
    refine List.map_congr_left fun f _ => ?_
    rw [Store.field?_shift]
    cases hf : m.world.store.field? i f <;> simp only [hf, Function.comp] <;> rfl
  unfold Native.fieldDict
  rw [effect_changeGet, effect_changeGet]
  refine .onStore hm ?_ ?_ ?_
  · refine Store.Change.once (.dict (Table.Every.empty.insertAll fun e he => ?_))
    obtain ⟨f, -, rfl⟩ := List.mem_map.mp he
    exact hfield f
  · exact Store.size_lt_push _ _
  · dsimp only
    rw [hfields]
    unfold Table.ofList
    rw [show (Table.empty : Table Value) = Table.empty.mapValues (Value.shift law.past.store) from rfl,
      Table.insertAll_mapValues, Store.newDict_shift]
    rfl

theorem fares_convert (hm : m.Sound law) (hv : m.world.store.Has v) (target : Text) :
    Fares law (Value.shift law.past.store) (effect (Native.convert v target))
      (effect (Native.convert (v.shift law.past.store) target)) m
      fun a m' => m'.world.store.Has a := by
  have hrefuse := fares_cannotConvert hm v target
  unfold Native.convert
  rw [effect_bind, effect_bind]
  refine .reads (ρ := id) (fun _ => typeName_shift m v) ?_
  dsimp only [id]
  split
  · unfold Native.copyValue
    rw [effect_changeGet, effect_changeGet]
    exact .onStore hm (.copy hm.store v) (Store.copy_spec hv).1 (Store.copy_shift hv)
  split
  · rw [effect_bind, effect_bind]
    exact .reads (ρ := id) (fun _ => Store.display_shift hm.store hv) (.pure hm trivial)
  split
  · cases v with
    | text t =>
      simp only [Value.shift, Native.parseNumber]
      split
      · exact .pure hm trivial
      · exact .raise hm
    | boolean b => exact .pure hm trivial
    | _ => exact hrefuse
  split
  · cases v with
    | number _ | text _ | null => exact .pure hm trivial
    | _ => exact hrefuse
  split
  · cases v with
    | text t =>
      refine fares_inertList hm (fun w hw => ?_) t.size
      obtain ⟨c, -, rfl⟩ := List.mem_map.mp (List.mem_toArray.mp hw)
      trivial
    | dict d =>
      have hkeys : Native.dictKeys (law.past.store.shift m.world.store) (law.past.store.dicts.size + d) =
          Native.dictKeys m.world.store d := by
        unfold Native.dictKeys Table.keys
        rw [Store.dict_shift, Table.mapValues, List.map_map, List.map_map, List.map_map]
        rfl
      simp only [Value.shift]
      rw [effect_bind, effect_bind]
      refine .reads (ρ := id) (fun _ => hkeys) ?_
      refine fares_inertList hm (fun w hw => ?_) _
      obtain ⟨k, -, rfl⟩ := List.mem_map.mp (List.mem_toArray.mp hw)
      trivial
    | _ => exact hrefuse
  split
  · cases v with
    | inst i => exact fares_fieldDict hm i
    | _ => exact hrefuse
  split
  · rw [effect_bind, effect_bind]
    refine .reads (ρ := id) (fun _ => ?_) (.pure hm trivial)
    cases v with
    | inst i => exact Store.instanceType_shift _ _ i
    | _ => rfl
  · exact hrefuse

theorem fares_newInstance (hm : m.Sound law) (t : TypeInfo) :
    Fares law (law.past.store.instances.size + ·) (onStore fun s => s.newInstance t)
      (onStore fun s => s.newInstance t) m fun i m' => m'.world.store.Has (.inst i) := by
  have hfields : ∀ (fields : List Text) (acc : Table Value), acc.Every m.world.store.Has →
      (fields.foldl (fun acc f => acc.insert f Value.null) acc).Every m.world.store.Has := by
    intro fields
    induction fields with
    | nil => exact fun acc hacc => hacc
    | cons f rest ih => exact fun acc hacc => ih _ (hacc.insert f trivial)
  refine .onStore hm ?_ ?_ (Store.newInstance_shift _ _ t)
  · exact Store.Change.once (.inst (hfields t.fields Table.empty .empty))
  · exact Store.size_lt_push _ _

theorem fares_fill (hm : m.Sound law) (i : InstanceId) {pairs : List (Text × Value)}
    (hpairs : ∀ e ∈ pairs, m.world.store.Has e.2) :
    Fares law id (onStore fun s => ((), State.startConstruction.fill s i pairs))
      (onStore fun s => ((), State.startConstruction.fill s (law.past.store.instances.size + i)
        (pairs.map fun e => (e.1, e.2.shift law.past.store)))) m fun _ _ => True := by
  have hchanges : ∀ (pairs : List (Text × Value)) (s : Store), (∀ e ∈ pairs, s.Has e.2) →
      law.Changes s (State.startConstruction.fill s i pairs) := by
    intro pairs
    induction pairs with
    | nil => exact fun s _ => .refl
    | cons e rest ih =>
      intro s hs
      have hset : law.Changes s (s.setField i e.1 e.2) :=
        Store.Change.once (.field i e.1 (hs e List.mem_cons_self))
      exact hset.trans (ih _ fun e' he' => (hs e' (List.mem_cons_of_mem e he')).mono
        (Store.Changes.le law.tends hset))
  have hshift : ∀ (pairs : List (Text × Value)) (s : Store),
      State.startConstruction.fill (law.past.store.shift s) (law.past.store.instances.size + i)
        (pairs.map fun e => (e.1, e.2.shift law.past.store)) =
        law.past.store.shift (State.startConstruction.fill s i pairs) := by
    intro pairs
    induction pairs with
    | nil => exact fun s => rfl
    | cons e rest ih =>
      intro s
      show State.startConstruction.fill ((law.past.store.shift s).setField
        (law.past.store.instances.size + i) e.1 (e.2.shift law.past.store)) _ _ = _
      rw [Store.setField_shift]
      exact ih _
  refine fares_write hm ?_ ?_
  · exact hchanges pairs m.world.store hpairs
  · exact hshift pairs m.world.store

end
end Exec

/-!
# Work that waits
-/

/-- The work is in scope, and a native that waits heeds scopes when it goes on. -/
def Pending.Sound (law : Law) (s : Store) : Pending → Prop
  | .nested sn => s.HasFrame sn.frame
  | .native _ sn resume => s.HasFrame sn.frame ∧ ∀ o (w : World), w.store.Scoped → s.Le w.store →
      w.store.HasOutcome o → (resume o w).Heeds law.native w.store
  | .construct i => s.Has (.inst i)
  | .convert | .instruction => True

/-- The second work waits behind the past for what the first one waits for. -/
inductive Pending.Shifts (past : Past) (s : Store) : Pending → Pending → Prop
  | nested {sn : Snapshot} : Shifts past s (.nested sn) (.nested (sn.shift past))
  | native {info : NativeInfo} {sn : Snapshot} {resume resume' : Except Fault Value → World → Action}
    (h : ∀ o (w : World), w.store.Scoped → s.Le w.store → w.store.HasOutcome o →
      (resume o w).Shifts past (resume' (shiftOutcome past.store o) (w.shift past))) :
    Shifts past s (.native info sn resume) (.native info (sn.shift past) resume')
  | construct {i : InstanceId} :
    Shifts past s (.construct i) (.construct (past.store.instances.size + i))
  | convert : Shifts past s .convert .convert
  | instruction : Shifts past s .instruction .instruction

/-- Everything that waits is in scope, and behind the past the same waits. -/
structure Waits (law : Law) (s : Store) (l l' : List Pending) : Prop where
  sound : ∀ work ∈ l, work.Sound law s
  same : law.twin → List.Forall₂ (Pending.Shifts law.past s) l l'

namespace Waits

variable {law : Law} {s s' : Store} {l l' : List Pending} {work' : Pending}

theorem mono (h : Waits law s l l') (hle : s.Le s') : Waits law s' l l' where
  sound work hwork := by
    have hsound := h.sound work hwork
    cases work with
    | nested sn => exact hsound.mono hle
    | native info sn resume =>
      exact ⟨hsound.1.mono hle, fun o w hw hle' ho => hsound.2 o w hw (hle.trans hle') ho⟩
    | construct i => exact hsound.mono hle
    | convert | instruction => trivial
  same ht := by
    refine (h.same ht).imp fun work work' hwork => ?_
    cases hwork with
    | nested => exact .nested
    | native h => exact .native fun o w hw hle' ho => h o w hw (hle.trans hle') ho
    | construct => exact .construct
    | convert => exact .convert
    | instruction => exact .instruction

theorem cons (h : Waits law s l l') (work : Pending) (hwork : work.Sound law s)
    (hsame : law.twin → work.Shifts law.past s work') : Waits law s (work :: l) (work' :: l') where
  sound w hw := by
    rcases List.mem_cons.mp hw with rfl | hw
    · exact hwork
    · exact h.sound w hw
  same ht := .cons (hsame ht) (h.same ht)

end Waits

/-!
# States
-/

def Mode.Within (s : Store) : Mode → Prop
  | .running => True
  | .invoking callee args => s.Has callee ∧ ∀ v ∈ args, s.Has v
  | .delivering o => s.HasOutcome o

def Mode.shift (p : Store) : Mode → Mode
  | .running => .running
  | .invoking callee args => .invoking (callee.shift p) (args.map (Value.shift p))
  | .delivering o => .delivering (shiftOutcome p o)

/-- Everything in the state is in scope. -/
structure State.Sound (law : Law) (s : State) : Prop where
  machine : s.machine.Sound law
  pending : ∀ work ∈ s.pending, work.Sound law s.machine.world.store
  mode : s.mode.Within s.machine.world.store

/-- The second state is the first one behind the past. -/
structure State.Shifts (past : Past) (s t : State) : Prop where
  machine : t.machine = s.machine.shift past
  pending : List.Forall₂ (Pending.Shifts past s.machine.world.store) s.pending t.pending
  mode : t.mode = s.mode.shift past.store

/-- The transition leads to a state in scope, or ends in scope, and the store has changed since `s` in
the ways that are known. -/
def Advance.Sound (law : Law) (s : Store) : Advance → Prop
  | .next s' => s'.Sound law ∧ law.Changes s s'.machine.world.store
  | .finished o m => m.Sound law ∧ law.Changes s m.world.store ∧ m.world.store.HasOutcome o
  | .crashed _ m => m.Sound law ∧ law.Changes s m.world.store

/-- The second transition does behind the past what the first one does. -/
inductive Advance.Shifts (past : Past) : Advance → Advance → Prop
  | next {s t : State} (h : s.Shifts past t) : Shifts past (.next s) (.next t)
  | finished {o : Except Fault Value} {m : Machine} :
    Shifts past (.finished o m) (.finished (shiftOutcome past.store o) (m.shift past))
  | crashed {message : Text} {m : Machine} :
    Shifts past (.crashed message m) (.crashed message (m.shift past))

/-- The transition is sound, and the other one does the same behind the past. -/
structure Advance.Fares (law : Law) (s : Store) (a a' : Advance) : Prop where
  sound : a.Sound law s
  same : law.twin → a.Shifts law.past a'

theorem Advance.Sound.after {law : Law} {s s' : Store} {a : Advance} (h : a.Sound law s')
    (hs : law.Changes s s') : a.Sound law s := by
  cases a with
  | next s'' => exact ⟨h.1, hs.trans h.2⟩
  | finished o m => exact ⟨h.1, hs.trans h.2.1, h.2.2⟩
  | crashed message m => exact ⟨h.1, hs.trans h.2⟩

theorem Advance.Fares.after {law : Law} {s s' : Store} {a a' : Advance} (h : Fares law s' a a')
    (hs : law.Changes s s') : Fares law s a a' :=
  ⟨h.sound.after hs, h.same⟩

namespace State

section
variable {law : Law} {m : Machine} {l l' : List Pending}

theorem fares_next (hm : m.Sound law) (hl : Waits law m.world.store l l') (mode : Mode)
    (hmode : mode.Within m.world.store) :
    Advance.Fares law m.world.store (.next ⟨m, l, mode⟩)
      (.next ⟨m.shift law.past, l', mode.shift law.past.store⟩) :=
  ⟨⟨⟨hm, hl.sound, hmode⟩, .refl⟩, fun ht => .next ⟨rfl, hl.same ht, rfl⟩⟩

theorem fares_deliver {o : Except Fault Value} (hm : m.Sound law) (hl : Waits law m.world.store l l')
    (ho : m.world.store.HasOutcome o) :
    Advance.Fares law m.world.store (deliver m l o)
      (deliver (m.shift law.past) l' (shiftOutcome law.past.store o)) :=
  fares_next hm hl _ ho

theorem fares_refuse (hm : m.Sound law) (hl : Waits law m.world.store l l') (f : Failure)
    (message : Text) :
    Advance.Fares law m.world.store (refuse m l f message) (refuse (m.shift law.past) l' f message) :=
  fares_next hm hl (.delivering (.error (.raised f message))) trivial

theorem fares_crashed (hm : m.Sound law) (message : Text) :
    Advance.Fares law m.world.store (.crashed message m) (.crashed message (m.shift law.past)) :=
  ⟨⟨hm, .refl⟩, fun _ => .crashed⟩

/-!
# Executing instructions
-/

theorem fares_proceed {n : Exec.Next} (hm : m.Sound law) (hl : Waits law m.world.store l l')
    (hn : n.Within m.world.store) :
    Advance.Fares law m.world.store (proceed l n m)
      (proceed l' (n.shift law.past.store) (m.shift law.past)) := by
  have hgo : ∀ ip, Advance.Fares law m.world.store (.next ⟨{ m with ip := ip }, l, .running⟩)
      (.next ⟨{ m.shift law.past with ip := ip }, l', .running⟩) := fun ip =>
    fares_next (m := { m with ip := ip }) { hm with } hl .running trivial
  cases n with
  | next => exact hgo _
  | skip d => exact hgo _
  | stay => exact hgo m.ip
  | call callee args =>
    exact fares_next hm (hl.cons .instruction trivial fun _ => .instruction) (.invoking callee args) hn
  | done v => exact fares_deliver hm hl hn

/-- What follows work of the engine, by the way in which it ended. -/
theorem fares_result {α : Type} {ρ : α → α} {x x' : Exec α} {P : α → Machine → Prop}
    (k k' : EStateM.Result Stop Machine α → Advance) (hx : Exec.Fares law ρ x x' m P)
    (hok : ∀ a m', x m = .ok a m' → m.Onward law m' → P a m' →
      Advance.Fares law m'.world.store (k (.ok a m')) (k' (.ok (ρ a) (m'.shift law.past))))
    (herror : ∀ e m', m.Onward law m' →
      Advance.Fares law m'.world.store (k (.error e m')) (k' (.error e (m'.shift law.past)))) :
    Advance.Fares law m.world.store (k (x m)) (k' (x' (m.shift law.past))) := by
  have hboth : Advance.Fares law m.world.store (k (x m)) (k' (Exec.shifted law.past ρ (x m))) := by
    have hsound := hx.sound
    cases hr : x m with
    | ok a m' =>
      rw [hr] at hsound
      exact (hok a m' hr hsound.1 hsound.2).after hsound.1.store
    | error e m' =>
      rw [hr] at hsound
      exact (herror e m' hsound).after hsound.store
  refine ⟨hboth.sound, fun ht => ?_⟩
  rw [hx.same ht]
  exact hboth.same ht

theorem fares_after {x x' : Exec Exec.Next} (hl : Waits law m.world.store l l')
    (hx : Exec.Fares law (Exec.Next.shift law.past.store) x x' m fun n m' => n.Within m'.world.store) :
    Advance.Fares law m.world.store (after l (x m)) (after l' (x' (m.shift law.past))) := by
  refine fares_result (after l) (after l') hx ?_ ?_
  · intro n m' _ hon hn
    exact fares_proceed hon.sound (hl.mono hon.le) hn
  · intro e m' hon
    cases e with
    | fault f =>
      show Advance.Fares law _ (deliver m' l (.error (m'.locate f)))
        (deliver (m'.shift law.past) l' (.error ((m'.shift law.past).locate f)))
      rw [Machine.locate_shift hon.sound.store hon.sound.frame f]
      exact fares_deliver hon.sound (hl.mono hon.le) (o := .error _) trivial
    | crash message => exact fares_crashed hon.sound message

/-- What follows, by what was found. -/
theorem fares_found {found found' : Option Value} (k k' : Option Value → Advance)
    (hfound : law.twin → found' = found.map (Value.shift law.past.store))
    (h : Advance.Fares law m.world.store (k found) (k' (found.map (Value.shift law.past.store)))) :
    Advance.Fares law m.world.store (k found) (k' found') := by
  refine ⟨h.sound, fun ht => ?_⟩
  rw [hfound ht]
  exact h.same ht

end
end State

/-- The engine when it has noted the instruction that it is about to execute. -/
def Machine.noted (m : Machine) : Machine :=
  if m.options.trace then m.tell .debug State.traceLine else m

namespace Machine

variable {law : Law} {m : Machine}

theorem noted_shift (past : Past) (m : Machine) : (m.shift past).noted = m.noted.shift past := by
  unfold noted
  show (if m.options.trace then _ else _) = _
  split
  · exact tell_shift .debug rfl
  · rfl

theorem noted_world (m : Machine) : m.noted.world.store = m.world.store := by
  unfold noted
  split
  · exact store_tell m _ _
  · rfl

theorem noted_op (m : Machine) : m.noted.ops[m.noted.ip.toNat]? = m.ops[m.ip.toNat]? := by
  unfold noted tell
  split
  · split <;> rfl
  · rfl

theorem Sound.noted (hm : m.Sound law) : m.noted.Sound law := by
  unfold Machine.noted
  split
  · exact hm.tell _ _
  · exact hm

end Machine

/-- The transition binds a parameter of a new frame to a value that it does not copy: the receiver of
the closure that an instruction enters, or anything that a closure is given by work that waits. -/
def State.Entrusts (s : State) (f : FrameId) (name : Text) (v : Value) : Prop :=
  match s.mode with
  | .running => ∃ op, s.machine.ops[s.machine.ip.toNat]? = some op ∧
      Exec.Entrusts op s.machine.noted f name v
  | .invoking (.closure c) args => ∃ cl m', s.machine.world.store.closure? c = some cl ∧
      Exec.enterClosure cl args true (s.machine.natives.back?.getD Text.empty) s.machine = .ok () m' ∧
      f = s.machine.world.store.frames.size ∧ m'.world.store.Holds f name v
  | _ => False

namespace State

section
variable {law : Law} {m : Machine} {l l' : List Pending}

theorem execute_noted (m : Machine) (l : List Pending) :
    execute m l = match m.program with
      | none => .crashed Exec.absent m
      | some p =>
        if (p.size : Int) ≤ m.ip then
          if m.calls.isEmpty then deliver m l (.ok .null)
          else refuse m l .internal "execution ran past the end of the program inside a call"
        else if m.ip < 0 then
          .crashed ("runtime error: index out of range [" ++ Text.ofInt m.ip ++ "]") m
        else match m.noted.ops[m.noted.ip.toNat]? with
          | none => .crashed Exec.absent m.noted
          | some op => after l (Exec.step op m.noted) := by
  unfold execute
  rfl

theorem fares_execute (hm : m.Sound law) (hl : Waits law m.world.store l l')
    (hlent : ∀ f name v, State.Entrusts ⟨m, l, .running⟩ f name v → law.lent f name v) :
    Advance.Fares law m.world.store (execute m l) (execute (m.shift law.past) l') := by
  rw [execute_noted, execute_noted, Machine.noted_shift, show (m.shift law.past).program = m.program from rfl]
  cases m.program with
  | none => exact fares_crashed hm _
  | some p =>
    show Advance.Fares law _ (if (p.size : Int) ≤ m.ip then _ else if m.ip < 0 then _ else _)
      (if (p.size : Int) ≤ m.ip then if m.calls.isEmpty then _ else _
        else if m.ip < 0 then _ else match m.noted.ops[m.noted.ip.toNat]? with | none => _ | some op => _)
    split
    · split
      · exact fares_deliver hm hl (o := .ok .null) trivial
      · exact fares_refuse hm hl _ _
    split
    · exact fares_crashed hm _
    have hworld := m.noted_world
    cases hop : m.noted.ops[m.noted.ip.toNat]? with
    | none =>
      rw [← hworld]
      exact fares_crashed hm.noted _
    | some op =>
      rw [← hworld]
      refine fares_after (hworld ▸ hl) (Exec.fares_step hm.noted op ?_ ?_)
      · exact fun v hv => hm.noted.constants op (Array.mem_of_getElem? hop) v hv
      · exact fun f name v h => hlent f name v ⟨op, m.noted_op ▸ hop, h⟩

end
end State
end ScriptEngine
