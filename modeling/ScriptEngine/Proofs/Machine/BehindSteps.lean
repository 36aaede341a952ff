import ScriptEngine.Proofs.Machine.Behind
import ScriptEngine.Proofs.Machine.Moves

/-!
# Instructions behind a past

Every instruction keeps values in scope and does the same behind a past. Arguments of a call are
copies, so the parameters of a closure that an instruction enters are bound to objects that no other
name is bound to. The one exception is the receiver of a closure that is bound to one.
-/

namespace ScriptEngine

namespace Exec

section
variable {law : Law} {m : Machine} {v : Value}

/-!
# Building containers and closures
-/

theorem fares_popItems (hm : m.Sound law) (n : Nat) {acc : Array Value}
    (hacc : ∀ v ∈ acc, m.world.store.Has v) :
    Fares law (Array.map (Value.shift law.past.store)) (popItems n acc)
      (popItems n (acc.map (Value.shift law.past.store))) m
      fun items m' => ∀ v ∈ items, m'.world.store.Has v := by
  induction n generalizing m acc with
  | zero => exact .pure hm hacc
  | succ n ih =>
    refine (fares_pop hm).bind ?_
    rintro v m₁ - hon₁ ⟨rfl, hv⟩
    refine (fares_copy hon₁.sound hv).bind ?_
    rintro a m₂ - hon₂ ⟨-, ha, -⟩
    rw [← Array.map_push]
    refine ih hon₂.sound fun w hw => ?_
    rcases Array.mem_push.mp hw with hw | rfl
    · exact (hacc w hw).mono hon₂.le
    · exact ha

theorem fares_popEntries (hm : m.Sound law) (n : Nat) {acc : Table Value}
    (hacc : acc.Every m.world.store.Has) :
    Fares law (Table.mapValues (Value.shift law.past.store)) (popEntries n acc)
      (popEntries n (acc.mapValues (Value.shift law.past.store))) m
      fun entries m' => entries.Every m'.world.store.Has := by
  induction n generalizing m acc with
  | zero => exact .pure hm hacc
  | succ n ih =>
    refine (fares_pop hm).bind ?_
    rintro key m₁ - hon₁ ⟨rfl, -⟩
    refine (fares_pop hon₁.sound).bind ?_
    rintro v m₂ - hon₂ ⟨rfl, hv⟩
    refine (fares_copy hon₂.sound hv).bind ?_
    rintro a m₃ - hon₃ ⟨-, ha, -⟩
    cases key with
    | text k =>
      simp only [Value.shift]
      rw [Table.insert_mapValues]
      exact ih hon₃.sound ((hacc.imp fun w hw => hw.mono hon₃.le).insert k ha)
    | _ => exact .raise hon₃.sound

theorem fares_popFields (hm : m.Sound law) (n : Nat) (acc : List Text) :
    Fares law id (popFields n acc) (popFields n acc) m fun _ _ => True := by
  induction n generalizing m acc with
  | zero => exact .pure hm trivial
  | succ n ih =>
    refine (fares_pop hm).bind ?_
    rintro v m₁ - hon₁ -
    cases v with
    | text name => exact ih hon₁.sound (name :: acc)
    | _ => exact .crash hon₁.sound

theorem fares_guardOf (hm : m.Sound law) (name : Text) (v : Value) :
    Fares law id (guardOf name v) (guardOf name (v.shift law.past.store)) m fun _ m' => m' = m := by
  cases v with
  | null => exact .pure hm rfl
  | type t => exact .pure hm rfl
  | _ => exact fares_raise_typeName hm _ _ _

theorem fares_popParams (hm : m.Sound law) (n : Nat) (acc : List Parameter) :
    Fares law id (popParams n acc) (popParams n acc) m fun _ m' => m'.frame = m.frame := by
  induction n generalizing m acc with
  | zero => exact .pure hm rfl
  | succ n ih =>
    refine (fares_pop hm).bind ?_
    rintro v m₁ - hon₁ ⟨rfl, -⟩
    cases v with
    | text name =>
      refine (fares_pop hon₁.sound).bind ?_
      rintro g m₂ - hon₂ ⟨rfl, -⟩
      refine (fares_guardOf hon₂.sound name g).bind ?_
      rintro guard m₃ - hon₃ rfl
      exact ih hon₂.sound _
    | _ => exact .crash hon₁.sound

theorem fares_buildClosure (hm : m.Sound law) :
    Fares law (Value.shift law.past.store) buildClosure buildClosure m
      fun a m' => m'.world.store.Has a := by
  refine (fares_popCount hm).bind ?_
  rintro n m₁ - hon₁ -
  refine (fares_checkCount hon₁.sound n).bind ?_
  rintro n m₂ - hon₂ rfl
  refine (fares_popParams hon₂.sound n []).bind ?_
  rintro params m₃ - hon₃ -
  refine .reads (ρ := id) (fun _ => rfl) ?_
  refine .reads (ρ := shiftFrame law.past.store) (fun _ => rfl) ?_
  refine .onStore hon₃.sound ?_ ?_ ?_
  · refine Store.Change.once (.closure (fun r hr => ?_) ?_)
    · cases hr
    · exact hon₃.sound.frame
  · exact Store.size_lt_push _ _
  · have hnew := Store.newClosure_shift law.past.store m₃.world.store
      ⟨m₃.ip + 1, m₃.frame, params, Text.empty, none⟩
    exact congrArg (fun r : ClosureId × Store => (Value.closure r.1, r.2)) hnew

/-!
# Entering closures
-/

theorem withReceiver_map (f : Value → Value) (receiver : Option Value) (args : List Value) :
    withReceiver (receiver.map f) (args.map f) = (withReceiver receiver args).map f := by
  cases receiver <;> rfl

theorem fares_checkGuards (hm : m.Sound law) (name : Text) (params : List Parameter)
    (args : List Value) :
    Fares law id (checkGuards name params args)
      (checkGuards name params (args.map (Value.shift law.past.store))) m fun _ m' => m' = m := by
  induction params generalizing args with
  | nil => exact .pure hm rfl
  | cons param params ih =>
    cases args with
    | nil => exact .pure hm rfl
    | cons v args =>
      cases hguard : param.guard with
      | none =>
        simp only [checkGuards, List.map_cons, hguard]
        exact ih args
      | some g =>
        simp only [checkGuards, List.map_cons, hguard]
        refine .reads (ρ := id) (fun _ => typeName_shift m v) ?_
        simp only [id]
        split
        · exact ih args
        · exact .raise hm

theorem fares_checkCall (hm : m.Sound law) (c : Closure) (args : List Value) :
    Fares law id (checkCall c args)
      (checkCall (c.shift law.past.store) (args.map (Value.shift law.past.store))) m
      fun _ m' => m' = m := by
  have hreceiver : (c.receiver.map (Value.shift law.past.store)).isSome = c.receiver.isSome :=
    Option.isSome_map
  unfold checkCall
  simp only [Closure.shift, withReceiver_map, List.length_map, hreceiver, Store.closureName]
  split
  · exact .raise hm
  refine (fares_checkGuards hm _ c.params (withReceiver c.receiver args)).bind ?_
  rintro _ m₁ - hon rfl
  refine .reads (ρ := id) (fun _ => rfl) ?_
  refine .reads (ρ := id) (fun _ => rfl) ?_
  simp only [id]
  split
  · exact .raise hm
  · exact .pure hm rfl

end
end Exec

namespace Machine

variable {law : Law} {m : Machine}

theorem callFrame_shift (past : Past) (m : Machine) (c : Closure) (args : List Value) (native : Text) :
    (m.shift past).callFrame (c.shift past.store) (args.map (Value.shift past.store)) native =
      (m.callFrame c args native).shift past.store := by
  have hvars : Table.ofList (List.zip (c.params.map (·.name))
      (Exec.withReceiver (c.receiver.map (Value.shift past.store)) (args.map (Value.shift past.store)))) =
      (Table.ofList (List.zip (c.params.map (·.name)) (Exec.withReceiver c.receiver args))).mapValues
        (Value.shift past.store) := by
    rw [Exec.withReceiver_map, List.zip_map_right]
    exact Table.insertAll_mapValues _ Table.empty _
  exact congrArg (fun vars => (⟨vars, _, _⟩ : Frame)) hvars

theorem entered_shift (past : Past) (m : Machine) (c : Closure) (args : List Value) (reentry : Bool)
    (native : Text) :
    (m.shift past).entered (c.shift past.store) (args.map (Value.shift past.store)) reentry native =
      (m.entered c args reentry native).shift past := by
  have hframe : (past.store.shift m.world.store).newFrame ((m.callFrame c args native).shift past.store) =
      (past.store.frames.size + (m.world.store.newFrame (m.callFrame c args native)).1,
        past.store.shift (m.world.store.newFrame (m.callFrame c args native)).2) :=
    Store.newFrame_shift past.store m.world.store (m.callFrame c args native)
  have hcaptured : (m.captured.map (shiftFrame past.store)).push (shiftFrame past.store c.frame) =
      (m.captured.push c.frame).map (shiftFrame past.store) := Array.map_push.symm
  unfold entered
  rw [callFrame_shift]
  dsimp only
  rw [← tell_shift .debug rfl]
  refine congrArg (fun m : Machine => m.tell .debug _) ?_
  exact congrArg₂ (fun (r : FrameId × Store) captured =>
    ({ (m.shift past).withStore r.2 with
      calls := m.calls.push ⟨m.ip, m.stack.height, reentry⟩
      captured := captured
      frame := some r.1
      ip := c.entry } : Machine)) hframe hcaptured

theorem Sound.entered (hm : m.Sound law) {c : Closure} {args : List Value} {reentry : Bool}
    {native : Text} (hargs : ∀ v ∈ Exec.withReceiver c.receiver args, m.world.store.Has v)
    (hframe : m.world.store.HasFrame c.frame)
    (hown : ∀ name v, (m.callFrame c args native).vars.get? name = some v → v.isHandle = true →
      law.lent m.world.store.frames.size name v ∨ m.world.store.Unbound v ∧
        ∀ other, (m.callFrame c args native).vars.get? other = some v → other = name) :
    m.Onward law (m.entered c args reentry native) := by
  have hvars : (m.callFrame c args native).vars.Every m.world.store.Has :=
    Table.Every.empty.insertAll fun e he => hargs e.2 (List.of_mem_zip he).2
  have hchange : law.Changes m.world.store (m.world.store.newFrame (m.callFrame c args native)).2 :=
    Store.Change.once (.frame hvars hframe hm.frame hown)
  have hsound := hm.withStore hchange
  have hentered : Machine.Sound law
      { m.withStore (m.world.store.newFrame (m.callFrame c args native)).2 with
        calls := m.calls.push ⟨m.ip, m.stack.height, reentry⟩
        captured := m.captured.push c.frame
        frame := some (m.world.store.newFrame (m.callFrame c args native)).1
        ip := c.entry } := by
    refine { hsound with depths := ?_, frame := ?_ }
    · intro record hrecord
      rcases Array.mem_push.mp hrecord with hrecord | rfl
      · exact hm.depths record hrecord
      · exact hm.backed
    · exact Store.hasFrame_some (Store.size_lt_push _ _)
  unfold Machine.entered
  dsimp only
  refine ⟨hentered.tell _ _, ?_⟩
  rw [store_tell]
  exact hchange

end Machine
/-!
# Parameters
-/

theorem Table.mem_of_get?_insertAll {α : Type} {t : Table α} {pairs : List (Text × α)} {name : Text}
    {v : α} (h : (t.insertAll pairs).get? name = some v) : (name, v) ∈ pairs ∨ t.get? name = some v := by
  induction pairs generalizing t with
  | nil => exact Or.inr h
  | cons e rest ih =>
    rcases ih h with h | h
    · exact Or.inl (List.mem_cons_of_mem e h)
    · rw [Table.get?_insert] at h
      split at h
      · rename_i hname
        cases h
        exact Or.inl (hname ▸ List.mem_cons_self)
      · exact Or.inr h

theorem Table.mem_of_get?_ofList {α : Type} {pairs : List (Text × α)} {name : Text} {v : α}
    (h : (Table.ofList pairs).get? name = some v) : (name, v) ∈ pairs := by
  rcases Table.mem_of_get?_insertAll h with h | h
  · exact h
  · cases h

namespace Exec

/-- Different parameters are not bound to one object. -/
theorem zip_unique {names : List Text} {args : List Value} {name other : Text} {v : Value}
    (hargs : args.Pairwise fun v w => v.isHandle = true → v ≠ w) (hv : v.isHandle = true)
    (h : (name, v) ∈ names.zip args) (h' : (other, v) ∈ names.zip args) : other = name := by
  induction names generalizing args with
  | nil => cases h
  | cons n names ih =>
    cases args with
    | nil => cases h
    | cons a args =>
      obtain ⟨hfirst, hrest⟩ := List.pairwise_cons.mp hargs
      rw [List.zip_cons_cons] at h h'
      rcases List.mem_cons.mp h with heq | hmem
      · rcases List.mem_cons.mp h' with heq' | hmem'
        · cases heq
          cases heq'
          rfl
        · cases heq
          exact absurd rfl (hfirst v (List.of_mem_zip hmem').2 hv)
      · rcases List.mem_cons.mp h' with heq' | hmem'
        · cases heq'
          exact absurd rfl (hfirst v (List.of_mem_zip hmem).2 hv)
        · exact ih hrest hmem hmem'

/-- The parameters of a call with fresh arguments are their objects' only names, but for the one that
is bound to the receiver. -/
theorem Fresh.owns {s : Store} {args : List Value} (h : Fresh s args) (receiver : Option Value)
    (names : List Text) {name : Text} {v : Value}
    (hv : (Table.ofList (names.zip (withReceiver receiver args))).get? name = some v)
    (hhandle : v.isHandle = true) :
    receiver = some v ∨ s.Unbound v ∧
      ∀ other, (Table.ofList (names.zip (withReceiver receiver args))).get? other = some v →
        other = name := by
  by_cases hreceiver : receiver = some v
  · exact Or.inl hreceiver
  -- every other parameter is bound to an argument
  have hargs : ∃ names' : List Text, ∀ other,
      (Table.ofList (names.zip (withReceiver receiver args))).get? other = some v →
        (other, v) ∈ names'.zip args := by
    cases receiver with
    | none => exact ⟨names, fun other hother => Table.mem_of_get?_ofList hother⟩
    | some r =>
      refine ⟨names.tail, fun other hother => ?_⟩
      have hmem := Table.mem_of_get?_ofList hother
      cases names with
      | nil => cases hmem
      | cons n names =>
        rcases List.mem_cons.mp hmem with heq | hmem
        · cases heq
          exact absurd rfl hreceiver
        · exact hmem
  obtain ⟨names', hzip⟩ := hargs
  refine Or.inr ⟨h.unbound v (List.of_mem_zip (hzip name hv)).2 hhandle, fun other hother => ?_⟩
  exact zip_unique h.distinct hhandle (hzip name hv) (hzip other hother)

/-!
# Calls
-/

/-- What an instruction calls, and with which arguments. -/
def calleeOf : Op → Exec (Option (Value × List Value))
  | .call => do
    let callee ← pop
    let args ← popArgs
    pure (some (callee, args))
  | .dispatch op => do
    let args ← popArgs
    match args with
    | [] => pure none
    | first :: _ => do
      let callee ← operator op first
      pure (callee.map (·, args))
  | _ => pure none

/-- The instruction enters a closure with a receiver, and binds a parameter in the new frame to it. -/
def Entrusts (op : Op) (m : Machine) (f : FrameId) (name : Text) (v : Value) : Prop :=
  ∃ c args m₁ cl m₂, calleeOf op m = .ok (some (.closure c, args)) m₁ ∧
    m₁.world.store.closure? c = some cl ∧ enterClosure cl args false Text.empty m₁ = .ok () m₂ ∧
    cl.receiver = some v ∧ f = m₁.world.store.frames.size ∧ m₂.world.store.Holds f name v

/-- The result of an instruction is in scope. -/
def Next.Within (s : Store) : Next → Prop
  | .call callee args => s.Has callee ∧ ∀ v ∈ args, s.Has v
  | .done v => s.Has v
  | _ => True

def Next.shift (p : Store) : Next → Next
  | .call callee args => .call (callee.shift p) (args.map (Value.shift p))
  | .done v => .done (v.shift p)
  | n => n

section
variable {law : Law} {m : Machine} {v : Value}

/-- A parameter is bound in the new frame. -/
theorem holds_entered {c : Closure} {args : List Value} {reentry : Bool} {native name : Text}
    (h : (m.callFrame c args native).vars.get? name = some v) :
    (m.entered c args reentry native).world.store.Holds m.world.store.frames.size name v := by
  have hstore : (m.entered c args reentry native).world.store =
      (m.world.store.newFrame (m.callFrame c args native)).2 := Machine.store_tell _ _ _
  rw [hstore]
  exact ⟨m.callFrame c args native, Array.getElem?_push_size, h⟩

/-- A closure in scope is entered with values in scope. -/
theorem fares_enterClosure {c : Closure} {args : List Value} {reentry : Bool} {native : Text}
    (hm : m.Sound law) (hargs : ∀ v ∈ withReceiver c.receiver args, m.world.store.Has v)
    (hframe : m.world.store.HasFrame c.frame)
    (hown : enterClosure c args reentry native m = .ok () (m.entered c args reentry native) →
      ∀ name v, (m.callFrame c args native).vars.get? name = some v → v.isHandle = true →
        law.lent m.world.store.frames.size name v ∨ m.world.store.Unbound v ∧
          ∀ other, (m.callFrame c args native).vars.get? other = some v → other = name) :
    Fares law id (enterClosure c args reentry native)
      (enterClosure (c.shift law.past.store) (args.map (Value.shift law.past.store)) reentry native) m
      fun _ m' => m' = m.entered c args reentry native := by
  have hparts : Fares law id (checkCall c args >>= fun _ => enter c args reentry native)
      (checkCall (c.shift law.past.store) (args.map (Value.shift law.past.store)) >>= fun _ =>
        enter (c.shift law.past.store) (args.map (Value.shift law.past.store)) reentry native) m
      fun _ m' => m' = m.entered c args reentry native := by
    refine (fares_checkCall hm c args).bind ?_
    rintro _ m₁ hcheck hon rfl
    have henter : enterClosure c args reentry native m₁ = .ok () (m₁.entered c args reentry native) := by
      rw [enterClosure_eq, bind_of_ok hcheck]
      rfl
    refine ⟨⟨hm.entered hargs hframe (hown henter), rfl⟩, fun _ => ?_⟩
    show EStateM.Result.ok () ((m₁.shift law.past).entered _ _ reentry native) = _
    rw [Machine.entered_shift]
    rfl
  refine ⟨?_, fun ht => ?_⟩
  · rw [enterClosure_eq]
    exact hparts.sound
  · rw [enterClosure_eq, enterClosure_eq]
    exact hparts.same ht

/-- What a closure in scope is given is in scope if its arguments are. -/
theorem has_withReceiver {c : ClosureId} {cl : Closure} {args : List Value} (hm : m.Sound law)
    (hc : m.world.store.closure? c = some cl) (hargs : ∀ v ∈ args, m.world.store.Has v) :
    ∀ v ∈ withReceiver cl.receiver args, m.world.store.Has v := by
  intro v hv
  cases hr : cl.receiver with
  | none =>
    rw [hr] at hv
    exact hargs v hv
  | some r =>
    rw [hr] at hv
    rcases List.mem_cons.mp hv with rfl | hv
    · exact (hm.store.closure hc).1 v hr
    · exact hargs v hv

theorem fares_callValue {callee : Value} {args : List Value} (hm : m.Sound law)
    (hcallee : m.world.store.Has callee) (hargs : Fresh m.world.store args)
    (hlent : ∀ c cl m₂ name v, callee = .closure c → m.world.store.closure? c = some cl →
      enterClosure cl args false Text.empty m = .ok () m₂ → cl.receiver = some v →
      m₂.world.store.Holds m.world.store.frames.size name v →
      law.lent m.world.store.frames.size name v) :
    Fares law (Next.shift law.past.store) (callValue callee args)
      (callValue (callee.shift law.past.store) (args.map (Value.shift law.past.store))) m
      fun n m' => n.Within m'.world.store := by
  cases callee with
  | closure c =>
    refine .reads (ρ := Option.map (Closure.shift law.past.store))
      (fun _ => Store.closure?_shift _ _ c) ?_
    cases hc : m.world.store.closure? c with
    | none => exact .crash hm
    | some cl =>
      have hall := has_withReceiver hm hc hargs.has
      refine (fares_enterClosure hm hall (hm.store.closure hc).2 fun henter name v hv hhandle => ?_).bind ?_
      · rcases hargs.owns cl.receiver _ hv hhandle with hr | hown
        · exact Or.inl (hlent c cl _ name v rfl hc henter hr (holds_entered hv))
        · exact Or.inr hown
      · rintro _ m₁ - hon -
        exact .pure hon.sound trivial
  | native info => exact .pure hm ⟨hcallee, hargs.has⟩
  | bound info r => exact .pure hm ⟨hcallee, hargs.has⟩
  | type t => exact .pure hm ⟨hcallee, hargs.has⟩
  | _ => exact fares_raise_typeName hm _ _ _

theorem fares_operator (hm : m.Sound law) (op : Text) (first : Value) :
    Fares law (Option.map (Value.shift law.past.store)) (operator op first)
      (operator op (first.shift law.past.store)) m
      fun a m' => m' = m ∧ ∀ v, a = some v → m.world.store.Has v := by
  refine ⟨⟨hm.onward, rfl, fun v hv => ?_⟩, fun ht => ?_⟩
  · dsimp only at hv
    split at hv
    · rename_i found hfound
      cases hv
      exact has_resolve hm hfound
    · exact hm.bindings.get? hv
  · have hfound : ∀ v, m.library.bindings.get? (Key.operatorMethod op) = some v →
        v.shift law.past.store = v := fun v hv =>
      Value.shift_inert (Table.Every.get? (hm.library ▸ law.inert ht) hv) _
    show EStateM.Result.ok _ (m.shift law.past) = EStateM.Result.ok _ (m.shift law.past)
    congr 1
    dsimp only
    rw [typeName_shift, resolve_shift hm ht]
    cases m.resolve (Key.join (Key.operatorMethod op) (m.world.store.typeName first)) with
    | some v => rfl
    | none =>
      show m.library.bindings.get? (Key.operatorMethod op) = (m.library.bindings.get? _).map _
      cases hv : m.library.bindings.get? (Key.operatorMethod op) with
      | none => rfl
      | some v => exact congrArg some (hfound v hv).symm

theorem fares_call (hm : m.Sound law)
    (hlent : ∀ f name v, Entrusts .call m f name v → law.lent f name v) :
    Fares law (Next.shift law.past.store) (step .call) (step .call) m
      fun n m' => n.Within m'.world.store := by
  refine (fares_pop hm).bind ?_
  rintro callee m₁ hpop hon₁ ⟨rfl, hcallee⟩
  refine (fares_popArgs hon₁.sound).bind ?_
  rintro args m₂ hargs hon₂ ⟨-, hfresh⟩
  refine fares_callValue hon₂.sound (hcallee.mono hon₂.le) hfresh ?_
  rintro c cl m₃ name v rfl hcl henter hreceiver hholds
  refine hlent _ name v ⟨c, args, m₂, cl, m₃, ?_, hcl, henter, hreceiver, rfl, hholds⟩
  show (pop >>= fun callee => popArgs >>= fun args => pure (some (callee, args))) m = _
  rw [bind_of_ok hpop, bind_of_ok hargs]
  rfl

theorem fares_dispatch (hm : m.Sound law) (op : Text)
    (hlent : ∀ f name v, Entrusts (.dispatch op) m f name v → law.lent f name v) :
    Fares law (Next.shift law.past.store) (step (.dispatch op)) (step (.dispatch op)) m
      fun n m' => n.Within m'.world.store := by
  refine (fares_popArgs hm).bind ?_
  rintro args m₁ hargs hon₁ ⟨-, hfresh⟩
  cases args with
  | nil => exact .crash hon₁.sound
  | cons first rest =>
    refine (fares_operator hon₁.sound op first).bind ?_
    rintro callee m₂ hcallee hon₂ ⟨rfl, hhas⟩
    cases callee with
    | some callee =>
      refine fares_callValue hon₁.sound (hhas callee rfl) hfresh ?_
      rintro c cl m₃ name v rfl hcl henter hreceiver hholds
      refine hlent _ name v ⟨c, first :: rest, _, cl, m₃, ?_, hcl, henter, hreceiver, rfl, hholds⟩
      show (popArgs >>= _) m = _
      rw [bind_of_ok hargs]
      show (operator op first >>= _) _ = _
      rw [bind_of_ok hcallee]
      rfl
    | none =>
      refine .reads (ρ := id) (fun _ => typeName_shift _ first) ?_
      cases rest with
      | nil => exact .raise hon₁.sound
      | cons second rest =>
        cases rest with
        | nil => exact fares_raise_typeName hon₁.sound second _ _
        | cons => exact .raise hon₁.sound

/-!
# Returns and scopes
-/

theorem fares_tell (hm : m.Sound law) {text text' : Machine → Text}
    (htext : text' (m.shift law.past) = text m) :
    Fares law id (tell text) (tell text') m
      fun _ m' => m'.world.store = m.world.store ∧ m'.stack = m.stack := by
  have hstore := Machine.store_tell m .debug text
  have hstack : (m.tell .debug text).stack = m.stack := by
    unfold Machine.tell
    split <;> rfl
  refine .change ⟨hm.tell .debug text, ?_⟩ ⟨hstore, hstack⟩ ?_
  · rw [hstore]
    exact .refl
  · have hsaid : (m.shift law.past).tell .debug text' =
        (m.shift law.past).tell .debug fun _ => text m := by
      unfold Machine.tell
      rw [htext]
    rw [hsaid]
    exact Machine.tell_shift .debug rfl

theorem mem_of_mem_pop {α : Type} {a : Array α} {x : α} (h : x ∈ a.pop) : x ∈ a := by
  rw [← Array.mem_toList_iff, Array.toList_pop] at h
  exact Array.mem_toList_iff.mp (List.mem_of_mem_dropLast h)

/-- The engine goes back to the caller. -/
theorem fares_back (hm : m.Sound law) {b : Frame} (hcaller : m.world.store.HasFrame b.caller)
    {depth : Nat} (hdepth : depth ≤ m.stack.slots.size) :
    Fares law id
      (modify fun m => { m with
        frame := b.caller
        captured := m.captured.pop
        stack := m.stack.cut depth })
      (modify fun m => { m with
        frame := (b.shift law.past.store).caller
        captured := m.captured.pop
        stack := m.stack.cut depth }) m fun _ m' => m'.world.store = m.world.store := by
  refine .change ⟨{ hm with frame := hcaller, backed := hdepth }, .refl⟩ rfl ?_
  have hcaptured : (m.captured.map (shiftFrame law.past.store)).pop =
      m.captured.pop.map (shiftFrame law.past.store) := Array.map_pop.symm
  rw [Frame.caller_shift]
  exact congrArg (fun captured => ({ m.shift law.past with
    frame := shiftFrame law.past.store b.caller
    captured := captured
    stack := (m.stack.cut depth).shift law.past } : Machine)) hcaptured

theorem fares_ret (hm : m.Sound law) :
    Fares law (Next.shift law.past.store) ret ret m fun n m' => n.Within m'.world.store := by
  refine (fares_pop hm).bind ?_
  rintro v m₁ - hon₁ ⟨-, hv⟩
  have hv := hv.mono hon₁.le
  have hm₁ := hon₁.sound
  refine .reads (ρ := id) (fun _ => rfl) ?_
  cases hrecord : m₁.calls.back? with
  | none => exact .pure hm₁ hv
  | some record =>
    have hdepth : record.depth ≤ m₁.stack.slots.size :=
      hm₁.depths record (Array.mem_of_back? hrecord)
    have hpopped : Machine.Sound law { m₁ with calls := m₁.calls.pop } :=
      { hm₁ with depths := fun r hr => hm₁.depths r (mem_of_mem_pop hr) }
    have hpop : Fares law id (modify fun m => { m with calls := m.calls.pop })
        (modify fun m => { m with calls := m.calls.pop }) m₁
        fun _ m' => m' = { m₁ with calls := m₁.calls.pop } := .change ⟨hpopped, .refl⟩ rfl rfl
    refine .reads (ρ := Option.map (Frame.shift law.past.store)) (fun _ => ?_) ?_
    · show ((law.past.store.shift m₁.world.store).boundary (shiftFrame law.past.store m₁.frame)).bind _ = _
      rw [Store.boundary_shift hm₁.store]
      cases m₁.world.store.boundary m₁.frame with
      | none => rfl
      | some b => exact Store.frame?_shift _ _ b
    refine hpop.bind ?_
    rintro _ m₂ - - rfl
    cases hboundary : (m₁.world.store.boundary m₁.frame).bind fun b => m₁.world.store.frame? b with
    | none => exact .crash hpopped
    | some b =>
      obtain ⟨f, -, hf⟩ := Option.bind_eq_some_iff.mp hboundary
      refine (fares_tell hpopped ?_).bind ?_
      · rw [Frame.name_shift]
      rintro _ m₃ - hon₃ ⟨hstore, hstack⟩
      have hcaller : m₃.world.store.HasFrame b.caller := by
        rw [hstore]
        exact hm₁.store.hasFrame_caller hf
      refine (fares_back hon₃.sound hcaller (hstack ▸ hdepth)).bind ?_
      rintro _ m₄ - hon₄ hstore'
      have hv₄ : m₄.world.store.Has v := by
        rw [hstore', hstore]
        exact hv
      split
      · exact .pure hon₄.sound hv₄
      · refine (fares_push hon₄.sound hv₄).bind ?_
        rintro _ m₅ - hon₅ -
        refine Fares.bind (P := fun _ _ => True) (.change ⟨{ hon₅.sound with }, .refl⟩ trivial rfl) ?_
        rintro _ m₆ - hon₆ -
        exact .pure hon₆.sound trivial

theorem fares_scopeEnter (hm : m.Sound law) :
    Fares law (Next.shift law.past.store) (step .scopeEnter) (step .scopeEnter) m
      fun n m' => n.Within m'.world.store := by
  have hnone : ∀ (name : Text) (v : Value), (Table.empty : Table Value).get? name = some v →
      v.isHandle = true → law.lent m.world.store.frames.size name v ∨ m.world.store.Unbound v ∧
        ∀ other, (Table.empty : Table Value).get? other = some v → other = name :=
    fun name v h => by cases h
  refine .reads (ρ := shiftFrame law.past.store) (fun _ => rfl) ?_
  refine Fares.bind (ρ := (law.past.store.frames.size + ·))
    (P := fun f m' => f < m'.world.store.frames.size) (.onStore hm ?_ ?_ ?_) ?_
  · exact Store.Change.once (.frame .empty hm.frame (Store.hasFrame_none _) hnone)
  · exact Store.size_lt_push _ _
  · exact Store.newFrame_shift _ _ ⟨Table.empty, m.frame, .block⟩
  · intro f m₁ _ hon hf
    have hframe := Store.hasFrame_some hf
    refine Fares.bind (P := fun _ _ => True)
      (.change ⟨{ hon.sound with frame := hframe }, .refl⟩ trivial rfl) ?_
    rintro _ m₂ - hon₂ -
    exact .pure hon₂.sound trivial

theorem fares_scopeExit (hm : m.Sound law) :
    Fares law (Next.shift law.past.store) (step .scopeExit) (step .scopeExit) m
      fun n m' => n.Within m'.world.store := by
  refine .reads (ρ := Option.map (Frame.shift law.past.store)) (fun _ => ?_) ?_
  · show (shiftFrame law.past.store m.frame).bind _ = (m.frame.bind _).map _
    cases m.frame with
    | none => rfl
    | some f => exact Store.frame?_shift _ _ f
  cases hfr : m.frame.bind fun f => m.world.store.frame? f with
  | none => exact .crash hm
  | some fr =>
    obtain ⟨f, -, hf⟩ := Option.bind_eq_some_iff.mp hfr
    simp only [Option.map_some, Frame.isBoundary_shift]
    split
    · exact .crash hm
    · refine Fares.bind (P := fun _ _ => True)
        (.change ⟨{ hm with frame := hm.store.hasFrame_outer hf }, .refl⟩ trivial rfl) ?_
      rintro _ m₁ - hon -
      exact .pure hon.sound trivial

/-!
# One instruction
-/

/-- An instruction that is done once its value is pushed. -/
theorem fares_pushed (hm : m.Sound law) (hv : m.world.store.Has v) (n : Next) (hn : n.Within m.world.store)
    (hshift : n.shift law.past.store = n) :
    Fares law (Next.shift law.past.store) (push v >>= fun _ => pure n)
      (push (v.shift law.past.store) >>= fun _ => pure n) m fun n m' => n.Within m'.world.store := by
  refine (fares_push hm hv).bind ?_
  rintro _ m₁ - hon rfl
  have hpure := Fares.pure (ρ := Next.shift law.past.store) (a := n)
    (P := fun n m' => n.Within m'.world.store) hon.sound hn
  rwa [hshift] at hpure

theorem fares_step (hm : m.Sound law) (op : Op) (hconstant : ∀ v, op = .push v → v.Inert)
    (hlent : ∀ f name v, Entrusts op m f name v → law.lent f name v) :
    Fares law (Next.shift law.past.store) (step op) (step op) m fun n m' => n.Within m'.world.store := by
  cases op with
  | push v =>
    have hpushed := fares_pushed hm (Store.Has.inert (hconstant v rfl)) .next trivial rfl
    rwa [Value.shift_inert (hconstant v rfl)] at hpushed
  | buildList =>
    refine (fares_popCount hm).bind ?_
    rintro n m₁ - hon₁ -
    refine (fares_checkCount hon₁.sound n).bind ?_
    rintro n m₂ - - rfl
    have hpop := fares_popItems hon₁.sound n fun v h => absurd h (Array.not_mem_empty v)
    rw [Array.map_empty] at hpop
    refine hpop.bind ?_
    intro items m₃ _ hon₃ hitems
    refine Fares.bind (ρ := (law.past.store.lists.size + ·))
      (P := fun l m' => m'.world.store.Has (.list l)) (.onStore hon₃.sound ?_ ?_ ?_) ?_
    · exact Store.Change.once (.list hitems _)
    · exact Store.size_lt_push _ _
    · unfold Store.newList
      rw [Array.size_map]
      exact Store.newListIn_shift _ _ items items.size
    · intro l m₄ _ hon₄ hl
      exact fares_pushed hon₄.sound hl .next trivial rfl
  | buildDict =>
    refine (fares_popCount hm).bind ?_
    rintro n m₁ - hon₁ -
    refine (fares_popEntries hon₁.sound n.toNat .empty).bind ?_
    intro entries m₂ _ hon₂ hentries
    refine Fares.bind (ρ := (law.past.store.dicts.size + ·))
      (P := fun d m' => m'.world.store.Has (.dict d)) (.onStore hon₂.sound ?_ ?_ ?_) ?_
    · exact Store.Change.once (.dict hentries)
    · exact Store.size_lt_push _ _
    · exact Store.newDict_shift _ _ entries
    · intro d m₃ _ hon₃ hd
      exact fares_pushed hon₃.sound hd .next trivial rfl
  | buildType name =>
    refine (fares_popCount hm).bind ?_
    rintro n m₁ - hon₁ -
    refine (fares_checkCount hon₁.sound n).bind ?_
    rintro n m₂ - - rfl
    refine (fares_popFields hon₁.sound n []).bind ?_
    rintro fields m₃ - hon₃ -
    exact fares_pushed (v := .type _) hon₃.sound trivial .next trivial rfl
  | buildFunc distance =>
    refine (fares_buildClosure hm).bind ?_
    intro c m₁ _ hon₁ hc
    exact fares_pushed hon₁.sound hc (.skip distance) trivial rfl
  | jump distance => exact .pure hm trivial
  | jumpPeek expected distance =>
    refine (fares_top hm).bind ?_
    rintro v m₁ - hon₁ -
    refine (fares_condition hon₁.sound v).bind ?_
    rintro b m₂ - - rfl
    dsimp only [id]
    split
    · exact .pure hon₁.sound trivial
    · exact .pure hon₁.sound trivial
  | jumpIfFalse distance =>
    refine (fares_pop hm).bind ?_
    rintro v m₁ - hon₁ -
    refine (fares_condition hon₁.sound v).bind ?_
    rintro b m₂ - - rfl
    dsimp only [id]
    split
    · exact .pure hon₁.sound trivial
    · exact .pure hon₁.sound trivial
  | call => exact fares_call hm hlent
  | dispatch op => exact fares_dispatch hm op hlent
  | ret => exact fares_ret hm
  | getVar name =>
    refine .reads (ρ := Option.map (Value.shift law.past.store)) (fun ht => resolve_shift hm ht name) ?_
    cases hv : m.resolve name with
    | none => exact .raise hm
    | some v => exact fares_pushed hm (has_resolve hm hv) .next trivial rfl
  | getMember =>
    refine (fares_pop hm).bind ?_
    rintro key m₁ - hon₁ ⟨rfl, hkey⟩
    refine (fares_pop hon₁.sound).bind ?_
    rintro object m₂ - hon₂ ⟨rfl, hobject⟩
    refine (fares_member hon₂.sound hobject hkey).bind ?_
    intro v m₃ _ hon₃ hv
    exact fares_pushed hon₃.sound hv .next trivial rfl
  | assign scope =>
    refine (fares_assign hm scope).bind ?_
    rintro _ m₁ - hon₁ -
    exact .pure hon₁.sound trivial
  | bump name up =>
    refine (fares_bump hm name up).bind ?_
    rintro _ m₁ - hon₁ -
    exact .pure hon₁.sound trivial
  | negate =>
    refine (fares_pop hm).bind ?_
    rintro v m₁ - hon₁ -
    cases v with
    | number x => exact fares_pushed (v := .number _) hon₁.sound trivial .next trivial rfl
    | _ => exact fares_raise_typeName hon₁.sound _ _ _
  | not =>
    refine (fares_pop hm).bind ?_
    rintro v m₁ - hon₁ -
    refine (fares_condition hon₁.sound v).bind ?_
    rintro b m₂ - - rfl
    exact fares_pushed (v := .boolean _) hon₁.sound trivial .next trivial rfl
  | stray again => exact .raise hm
  | scopeEnter => exact fares_scopeEnter hm
  | scopeExit => exact fares_scopeExit hm
  | pop =>
    refine (fares_pop hm).bind ?_
    rintro v m₁ - hon₁ -
    exact .pure hon₁.sound trivial
  | unknown b => exact .crash hm

end
end Exec
end ScriptEngine
