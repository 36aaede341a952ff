import ScriptEngine.Proofs.Machine.BehindStates

/-!
# Runs behind a past

What was said of instructions holds of transitions and of whole runs: values stay in scope, the store
changes in the ways that are known, and a run behind a past is the run without one, with shifted
objects.
-/

namespace ScriptEngine

/-!
# Natives
-/

theorem mem_of_mem_shrink {α : Type} {a : Array α} {n : Nat} {x : α} (h : x ∈ a.shrink n) : x ∈ a := by
  rw [Array.shrink_eq_take] at h
  obtain ⟨i, hi⟩ := Array.mem_iff_getElem?.mp h
  rw [Array.getElem?_extract] at hi
  split at hi
  · exact Array.mem_of_getElem? hi
  · cases hi

namespace Machine

variable {law : Law} {m : Machine}

theorem Sound.restore (hm : m.Sound law) {sn : Snapshot} (hcovers : m.covers sn = true)
    (hframe : m.world.store.HasFrame sn.frame) : (m.restore sn).Sound law := by
  have hheight : sn.stack ≤ m.stack.height := by
    unfold covers at hcovers
    simp only [Bool.and_eq_true, decide_eq_true_eq] at hcovers
    exact hcovers.1.1
  exact { hm with
    backed := Nat.le_trans hheight hm.backed
    depths := fun record hrecord => hm.depths record (mem_of_mem_shrink hrecord)
    frame := hframe }

/-- The engine with a world that a native has left. -/
theorem Sound.withWorld {w w' : World} (hm : Sound law { m with world := w })
    (h : law.native w.store w'.store) : Onward law { m with world := w } { m with world := w' } := by
  have hchanges : law.Changes w.store w'.store := Store.Change.once (.native h)
  exact ⟨{ hm.withStore hchanges with }, hchanges⟩

end Machine

namespace State

section
variable {law : Law} {m : Machine} {l l' : List Pending} {info : NativeInfo} {sn : Snapshot}

theorem nativeFault_shift {past : Past} (hs : m.world.store.Scoped)
    (hframe : m.world.store.HasFrame m.frame) (info : NativeInfo) (f : Fault) :
    nativeFault (m.shift past) info f = nativeFault m info f := by
  have htrace : (m.shift past).traceAt (m.shift past).ip = m.traceAt m.ip :=
    Machine.traceAt_shift hs hframe m.ip
  cases f with
  | located => rfl
  | raised failure message =>
    unfold nativeFault
    rw [htrace]
    rfl
  | foreign message =>
    unfold nativeFault
    rw [htrace]
    rfl

/-- What is handed over when a native has failed and the engine is back where it was called. -/
def reportNative (m : Machine) (l : List Pending) (info : NativeInfo) (f : Fault) : Advance :=
  let located := nativeFault m info f
  deliver (match f with
    | .located .. => m
    | _ => m.tell .debug fun _ => "native " ++ info.name ++ " failed: " ++ located.message) l
    (.error located)

theorem failNative_eq_report (m : Machine) (l : List Pending) (info : NativeInfo) (sn : Snapshot)
    (f : Fault) :
    failNative m l info sn f =
      if Machine.covers { m with natives := m.natives.pop } sn then
        reportNative (Machine.restore { m with natives := m.natives.pop } sn) l info f
      else .crashed Machine.restoreCrash { m with natives := m.natives.pop } :=
  rfl

theorem fares_reportNative (hm : m.Sound law) (hl : Waits law m.world.store l l') (f : Fault) :
    Advance.Fares law m.world.store (reportNative m l info f)
      (reportNative (m.shift law.past) l' info f) := by
  have htold : ∀ message : Text, Advance.Fares law m.world.store
      (deliver (m.tell .debug fun _ => message) l (.error (nativeFault m info f)))
      (deliver ((m.shift law.past).tell .debug fun _ => message) l' (.error (nativeFault m info f))) := by
    intro message
    have hstore := Machine.store_tell m .debug fun _ => message
    rw [Machine.tell_shift .debug rfl, ← hstore]
    exact fares_deliver (hm.tell _ _) (hstore ▸ hl) (o := .error _) trivial
  unfold reportNative
  rw [nativeFault_shift hm.store hm.frame]
  cases f with
  | located => exact fares_deliver hm hl (o := .error _) trivial
  | raised | foreign => exact htold _

theorem fares_failNative (hm : m.Sound law) (hl : Waits law m.world.store l l')
    (hsn : m.world.store.HasFrame sn.frame) (f : Fault) :
    Advance.Fares law m.world.store (failNative m l info sn f)
      (failNative (m.shift law.past) l' info (sn.shift law.past) f) := by
  obtain ⟨m', hm'⟩ : ∃ m', m' = { m with natives := m.natives.pop } := ⟨_, rfl⟩
  have hout : m'.Sound law := hm' ▸ { hm with }
  have hworld : m'.world = m.world := by rw [hm']
  rw [failNative_eq_report, failNative_eq_report,
    show { m.shift law.past with natives := (m.shift law.past).natives.pop } = m'.shift law.past by
      rw [hm']
      rfl,
    ← hm', Machine.covers_shift, Machine.restore_shift, ← hworld]
  rw [← hworld] at hl hsn
  split
  · rename_i hcovered
    exact fares_reportNative (hout.restore hcovered hsn) hl f
  · exact fares_crashed hout _

theorem follow_sound {action : Action} {s : Store} (ha : action.Heeds law.native s) {w : World}
    (hw : w.store = s) (hm : Machine.Sound law { m with world := w }) (hl : Waits law s l l')
    (hsn : s.HasFrame sn.frame) : Advance.Sound law s (follow m l info sn action) := by
  induction ha generalizing m w with
  | @done s r w' h hr =>
    subst hw
    have hon := hm.withWorld h
    have hnext : Machine.Sound law { m with world := w', natives := m.natives.pop } :=
      { hon.sound with }
    have ho : w'.store.HasOutcome (.ok (r.getD .null)) := by
      cases r with
      | none => trivial
      | some v => exact hr v rfl
    exact (fares_deliver hnext (hl.mono hon.le) ho).sound.after hon.store
  | fail h =>
    subst hw
    have hon := hm.withWorld h
    exact (fares_failNative hon.sound (hl.mono hon.le) (hsn.mono hon.le) _).sound.after hon.store
  | crash h =>
    subst hw
    have hon := hm.withWorld h
    exact ⟨hon.sound, hon.store⟩
  | invoke h hcallee hargs hresume =>
    subst hw
    have hon := hm.withWorld h
    refine ⟨⟨hon.sound, fun work hwork => ?_, hcallee, hargs⟩, hon.store⟩
    rcases List.mem_cons.mp hwork with rfl | hwork
    · exact ⟨hsn.mono hon.le, hresume⟩
    · exact (hl.mono hon.le).sound work hwork
  | depth h _ ih =>
    subst hw
    have hon := hm.withWorld h
    exact (ih m.stack.height rfl hon.sound (hl.mono hon.le) (hsn.mono hon.le)).after hon.store
  | save h _ ih =>
    subst hw
    have hon := hm.withWorld h
    exact (ih m.snapshot hon.sound.frame rfl hon.sound (hl.mono hon.le) (hsn.mono hon.le)).after hon.store
  | @restore s sn' w' resume h hframe _ ih =>
    subst hw
    have hon := hm.withWorld h
    rw [follow]
    split
    · rename_i hcovered
      have hback : Machine.Sound law { m.restore sn' with world := w' } :=
        hon.sound.restore hcovered hframe
      exact (ih rfl hback (hl.mono hon.le) (hsn.mono hon.le)).after hon.store
    · exact ⟨hon.sound, hon.store⟩

theorem follow_shifts {action action' : Action} {s : Store} (ht : law.twin)
    (ha : action.Heeds law.native s) (hshift : action.Shifts law.past action') {w w' : World}
    (hw : w.store = s) (hm : Machine.Sound law { m with world := w }) (hl : Waits law s l l')
    (hsn : s.HasFrame sn.frame) :
    Advance.Shifts law.past (follow m l info sn action)
      (follow { m.shift law.past with world := w' } l' info (sn.shift law.past) action') := by
  induction ha generalizing m w action' with
  | @done s r w₁ h hr =>
    subst hw
    have hon := hm.withWorld h
    cases hshift
    have hvalue : (r.map (Value.shift law.past.store)).getD .null =
        (r.getD .null).shift law.past.store := by
      cases r <;> rfl
    rw [follow, follow, hvalue]
    exact .next ⟨rfl, (hl.mono hon.le).same ht, rfl⟩
  | fail h =>
    subst hw
    have hon := hm.withWorld h
    cases hshift
    exact (fares_failNative hon.sound (hl.mono hon.le) (hsn.mono hon.le) _).same ht
  | crash h =>
    cases hshift
    exact .crashed
  | invoke h hcallee hargs hresume =>
    subst hw
    have hon := hm.withWorld h
    cases hshift with
    | invoke hresume' => exact .next ⟨rfl, .cons (.native hresume') ((hl.mono hon.le).same ht), rfl⟩
  | depth h _ ih =>
    subst hw
    have hon := hm.withWorld h
    cases hshift with
    | depth hresume =>
      rw [follow, follow]
      exact ih m.stack.height (hresume _) rfl hon.sound (hl.mono hon.le) (hsn.mono hon.le)
  | save h _ ih =>
    subst hw
    have hon := hm.withWorld h
    cases hshift with
    | save hresume =>
      have hnext := hresume m.snapshot hon.sound.frame
      rw [← Machine.snapshot_shift] at hnext
      rw [follow, follow]
      exact ih m.snapshot hon.sound.frame hnext rfl hon.sound (hl.mono hon.le) (hsn.mono hon.le)
  | @restore s sn' w₁ resume h hframe _ ih =>
    subst hw
    have hon := hm.withWorld h
    cases hshift with
    | restore hresume =>
      have hcovers : Machine.covers { m.shift law.past with world := w' } (sn'.shift law.past) =
          m.covers sn' := m.covers_shift sn'
      have hrestore : Machine.restore { m.shift law.past with world := w' } (sn'.shift law.past) =
          { (m.restore sn').shift law.past with world := w' } :=
        congrArg (fun m : Machine => { m with world := w' }) (m.restore_shift sn')
      rw [follow, follow, hcovers, hrestore]
      split
      · rename_i hcovered
        have hback : Machine.Sound law { m.restore sn' with world := w₁ } :=
          hon.sound.restore hcovered hframe
        exact ih hresume rfl hback (hl.mono hon.le) (hsn.mono hon.le)
      · exact .crashed

/-- A native works in the engine's world. -/
theorem fares_handOver {action action' : World → Action} (hm : m.Sound law)
    (hl : Waits law m.world.store l l') (hsn : m.world.store.HasFrame sn.frame)
    (ha : (action m.world).Heeds law.native m.world.store)
    (hshift : law.twin → (action m.world).Shifts law.past (action' (m.world.shift law.past))) :
    Advance.Fares law m.world.store (handOver m l info sn action)
      (handOver (m.shift law.past) l' info (sn.shift law.past) action') where
  sound := follow_sound ha rfl (w := m.world) hm hl hsn
  same ht := follow_shifts ht ha (hshift ht) rfl (w := m.world) hm hl hsn

theorem fares_enterNative {all : List Value} (hm : m.Sound law) (hl : Waits law m.world.store l l')
    (hall : ∀ v ∈ all, m.world.store.Has v) :
    Advance.Fares law m.world.store (enterNative m l info all)
      (enterNative (m.shift law.past) l' info (all.map (Value.shift law.past.store))) := by
  unfold enterNative
  show Advance.Fares law _ _ (if nativeLimit ≤ m.natives.size then _ else _)
  split
  · exact fares_refuse hm hl _ _
  · dsimp only
    rw [Machine.snapshot_shift]
    refine fares_handOver (m := { m with natives := m.natives.push info.name }) { hm with } hl hm.frame
      ?_ fun ht => ?_
    · rw [hm.library]
      exact law.heeds info all m.world hm.store hall
    · show (m.library.behaviour info all m.world).Shifts law.past
        (m.library.behaviour info (all.map (Value.shift law.past.store)) (m.world.shift law.past))
      rw [hm.library]
      exact law.stateless ht law.past info all m.world hm.store hall

theorem fares_startNative {args : List Value} (hm : m.Sound law) (hl : Waits law m.world.store l l')
    (receiver : Option Value)
    (hall : ∀ v ∈ Exec.withReceiver receiver args, m.world.store.Has v) :
    Advance.Fares law m.world.store (startNative m l info receiver args)
      (startNative (m.shift law.past) l' info (receiver.map (Value.shift law.past.store))
        (args.map (Value.shift law.past.store))) := by
  have henter : Advance.Fares law m.world.store (enterNative m l info (Exec.withReceiver receiver args))
      (enterNative (m.shift law.past) l' info
        ((Exec.withReceiver receiver args).map (Value.shift law.past.store))) :=
    fares_enterNative hm hl hall
  unfold startNative
  simp only [Exec.withReceiver_map, List.length_map, Option.isSome_map]
  cases info.arity with
  | none => exact henter
  | some arity =>
    dsimp only
    split
    · exact fares_refuse hm hl _ _
    · exact henter

/-- A fault that takes the engine back. -/
theorem fares_restored (hm : m.Sound law) (hl : Waits law m.world.store l l')
    (hsn : m.world.store.HasFrame sn.frame) (f : Fault) :
    Advance.Fares law m.world.store
      (if m.covers sn then deliver (m.restore sn) l (.error f) else .crashed Machine.restoreCrash m)
      (if (m.shift law.past).covers (sn.shift law.past) then
        deliver ((m.shift law.past).restore (sn.shift law.past)) l' (.error f)
      else .crashed Machine.restoreCrash (m.shift law.past)) := by
  rw [Machine.covers_shift, Machine.restore_shift]
  split
  · rename_i hcovered
    exact fares_deliver (hm.restore hcovered hsn) hl (o := .error f) trivial
  · exact fares_crashed hm _

/-!
# Calls
-/

theorem fares_manage {work work' : Pending} {callee : Value} {args : List Value} (hm : m.Sound law)
    (hl : Waits law m.world.store l l') (hwork : work.Sound law m.world.store)
    (hsame : law.twin → work.Shifts law.past m.world.store work') (hcallee : m.world.store.Has callee)
    (hargs : ∀ v ∈ args, m.world.store.Has v) :
    Advance.Fares law m.world.store (manage m l work callee args)
      (manage (m.shift law.past) l' work' (callee.shift law.past.store)
        (args.map (Value.shift law.past.store))) :=
  fares_next (m := { m with natives := m.natives.push Text.empty }) { hm with }
    (hl.cons work hwork hsame) (.invoking callee args) ⟨hcallee, hargs⟩

/-- What follows a conversion that no method of the program makes. -/
def converted (l : List Pending) : EStateM.Result Stop Machine Value → Advance
  | .ok v m => deliver m l (.ok v)
  | .error (.fault f) m => deliver m l (.error f)
  | .error (.crash message) m => .crashed message m

theorem fares_convertValue {v : Value} (hm : m.Sound law) (hl : Waits law m.world.store l l')
    (hv : m.world.store.Has v) (target : Text) :
    Advance.Fares law m.world.store (convertValue m l v target)
      (convertValue (m.shift law.past) l' (v.shift law.past.store) target) := by
  refine fares_result (converted l) (converted l') (Exec.fares_convert hm hv target) ?_ ?_
  · intro a m' _ hon ha
    exact fares_deliver hon.sound (hl.mono hon.le) (o := .ok a) ha
  · intro e m' hon
    cases e with
    | fault f => exact fares_deliver hon.sound (hl.mono hon.le) (o := .error f) trivial
    | crash message => exact fares_crashed hon.sound message

/-- A conversion by the method that was found, if there is one. -/
def convertBy (m : Machine) (l : List Pending) (t : TypeInfo) (v : Value) : Option Value → Advance
  | some method => manage m l .convert method [v]
  | none => convertValue m l v t.name

theorem fares_startConversion {args : List Value} (hm : m.Sound law)
    (hl : Waits law m.world.store l l') (hargs : ∀ v ∈ args, m.world.store.Has v) (t : TypeInfo) :
    Advance.Fares law m.world.store (startConversion m l t args)
      (startConversion (m.shift law.past) l' t (args.map (Value.shift law.past.store))) := by
  match args, hargs with
  | [], _ => exact fares_refuse hm hl _ _
  | [v], hargs =>
    have hv := hargs v List.mem_cons_self
    refine fares_found (convertBy m l t v)
      (convertBy (m.shift law.past) l' t (v.shift law.past.store)) (fun ht => ?_) ?_
    · rw [Exec.resolve_shift hm ht, Exec.typeName_shift]
    · cases hmethod : m.resolve (Key.join ("to" ++ t.name) (m.world.store.typeName v)) with
      | some method =>
        exact fares_manage hm hl trivial (fun _ => .convert) (Exec.has_resolve hm hmethod) hargs
      | none => exact fares_convertValue hm hl hv t.name
  | v :: w :: rest, _ =>
    simp only [List.map_cons, startConversion, List.length_cons, List.length_map]
    exact fares_refuse hm hl _ _

/-- The call of a record type, once the instance is there. -/
def construct (m : Machine) (l : List Pending) (t : TypeInfo) (args : List Value) (i : InstanceId) :
    Advance :=
  match m.resolve (Key.join "new" t.name) with
  | some constructor => manage m l (.construct i) constructor (.inst i :: args)
  | none =>
    if args.isEmpty then deliver m l (.ok (.inst i))
    else if args.length == t.fields.length then
      match Exec.onStore (fun s => ((), startConstruction.fill s i (t.fields.zip args))) m with
      | .error _ m => .crashed Exec.absent m
      | .ok _ m => deliver m l (.ok (.inst i))
    else
      refuse m l .arity (t.name ++ " expects 0 or " ++ Text.ofNat t.fields.length
        ++ " arguments, got " ++ Text.ofNat args.length)

theorem startConstruction_eq (m : Machine) (l : List Pending) (t : TypeInfo) (args : List Value) :
    startConstruction m l t args =
      match Exec.onStore (fun s => s.newInstance t) m with
      | .error _ m => .crashed Exec.absent m
      | .ok i m => construct m l t args i :=
  rfl

theorem fares_construct {args : List Value} {i : InstanceId} (hm : m.Sound law)
    (hl : Waits law m.world.store l l') (hargs : ∀ v ∈ args, m.world.store.Has v)
    (hi : m.world.store.Has (.inst i)) (t : TypeInfo) :
    Advance.Fares law m.world.store (construct m l t args i)
      (construct (m.shift law.past) l' t (args.map (Value.shift law.past.store))
        (law.past.store.instances.size + i)) := by
  unfold construct
  simp only [List.isEmpty_map, List.length_map]
  refine fares_found
    (fun
      | some constructor => manage m l (.construct i) constructor (.inst i :: args)
      | none => _)
    (fun
      | some constructor => manage (m.shift law.past) l' (.construct (law.past.store.instances.size + i))
          constructor (.inst (law.past.store.instances.size + i) :: args.map (Value.shift law.past.store))
      | none => _)
    (fun ht => Exec.resolve_shift hm ht _) ?_
  cases hfound : m.resolve (Key.join "new" t.name) with
  | some constructor =>
    refine fares_manage hm hl hi (fun _ => .construct) (Exec.has_resolve hm hfound) fun v hv => ?_
    rcases List.mem_cons.mp hv with rfl | hv
    · exact hi
    · exact hargs v hv
  | none =>
    dsimp only [Option.map_none]
    split
    · exact fares_deliver hm hl (o := .ok (.inst i)) hi
    split
    · have hpairs : t.fields.zip (args.map (Value.shift law.past.store)) =
          (t.fields.zip args).map fun e => (e.1, e.2.shift law.past.store) := List.zip_map_right
      rw [hpairs]
      have hfields : ∀ e ∈ t.fields.zip args, m.world.store.Has e.2 :=
        fun e he => hargs e.2 (List.of_mem_zip he).2
      refine fares_result
        (fun
          | .error _ m => .crashed Exec.absent m
          | .ok _ m => deliver m l (.ok (.inst i)))
        (fun
          | .error _ m => .crashed Exec.absent m
          | .ok _ m => deliver m l' (.ok (.inst (law.past.store.instances.size + i))))
        (Exec.fares_fill hm i hfields) ?_ ?_
      · intro _ m' _ hon _
        exact fares_deliver hon.sound (hl.mono hon.le) (o := .ok (.inst i)) (hi.mono hon.le)
      · exact fun _ m' hon => fares_crashed hon.sound _
    · exact fares_refuse hm hl _ _

theorem fares_startConstruction {args : List Value} (hm : m.Sound law)
    (hl : Waits law m.world.store l l') (hargs : ∀ v ∈ args, m.world.store.Has v) (t : TypeInfo) :
    Advance.Fares law m.world.store (startConstruction m l t args)
      (startConstruction (m.shift law.past) l' t (args.map (Value.shift law.past.store))) := by
  rw [startConstruction_eq, startConstruction_eq]
  refine fares_result
    (fun
      | .error _ m => .crashed Exec.absent m
      | .ok i m => construct m l t args i)
    (fun
      | .error _ m => .crashed Exec.absent m
      | .ok i m => construct m l' t (args.map (Value.shift law.past.store)) i)
    (Exec.fares_newInstance hm t) ?_ ?_
  · intro i m' _ hon hi
    exact fares_construct hon.sound (hl.mono hon.le) (fun v hv => (hargs v hv).mono hon.le) hi t
  · exact fun _ m' hon => fares_crashed hon.sound _

/-- What follows the entry of a nested run: its first instruction, or the way back to the snapshot. -/
def nestedOnward (sn : Snapshot) (l : List Pending) : EStateM.Result Stop Machine Unit → Advance
  | .ok _ m => .next ⟨m, .nested sn :: l, .running⟩
  | .error (.fault f) m =>
    if m.covers sn then deliver (m.restore sn) l (.error f) else .crashed Machine.restoreCrash m
  | .error (.crash message) m => .crashed message m

/-- A closure that work which waits has called: every parameter may be bound to what others hold. -/
theorem fares_startNested {c : ClosureId} {cl : Closure} {args : List Value} (hm : m.Sound law)
    (hl : Waits law m.world.store l l') (hcl : m.world.store.closure? c = some cl)
    (hargs : ∀ v ∈ args, m.world.store.Has v)
    (hlent : ∀ f name v, State.Entrusts ⟨m, l, .invoking (.closure c) args⟩ f name v →
      law.lent f name v) :
    Advance.Fares law m.world.store (startNested m l cl args)
      (startNested (m.shift law.past) l' (cl.shift law.past.store)
        (args.map (Value.shift law.past.store))) := by
  have hall : ∀ v ∈ Exec.withReceiver cl.receiver args, m.world.store.Has v :=
    Exec.has_withReceiver hm hcl hargs
  have henter := Exec.fares_enterClosure hm hall (hm.store.closure hcl).2
    fun henter name v hv _ => Or.inl (hlent _ name v ⟨cl, _, hcl, henter, rfl, Exec.holds_entered hv⟩)
  unfold startNested
  dsimp only
  rw [Machine.snapshot_shift]
  refine fares_result (nestedOnward m.snapshot l) (nestedOnward (m.snapshot.shift law.past) l')
    henter ?_ ?_
  · intro _ m' _ hon _
    have hsn : m'.world.store.HasFrame m.snapshot.frame := hm.frame.mono hon.le
    exact fares_next hon.sound ((hl.mono hon.le).cons (.nested m.snapshot) hsn fun _ => .nested)
      .running trivial
  · intro e m' hon
    cases e with
    | fault f => exact fares_restored hon.sound (hl.mono hon.le) (hm.frame.mono hon.le) f
    | crash message => exact fares_crashed hon.sound message

theorem fares_invoke {callee : Value} {args : List Value} (hm : m.Sound law)
    (hl : Waits law m.world.store l l') (hcallee : m.world.store.Has callee)
    (hargs : ∀ v ∈ args, m.world.store.Has v)
    (hlent : ∀ f name v, State.Entrusts ⟨m, l, .invoking callee args⟩ f name v → law.lent f name v) :
    Advance.Fares law m.world.store (invoke m l callee args)
      (invoke (m.shift law.past) l' (callee.shift law.past.store)
        (args.map (Value.shift law.past.store))) := by
  have hrefuse : ∀ v : Value, Advance.Fares law m.world.store
      (refuse m l .notCallable (m.world.store.typeName v ++ " is not callable"))
      (refuse (m.shift law.past) l' .notCallable
        ((m.shift law.past).world.store.typeName (v.shift law.past.store) ++ " is not callable")) := by
    intro v
    rw [Exec.typeName_shift]
    exact fares_refuse hm hl _ _
  cases callee with
  | closure c =>
    unfold invoke Value.shift
    dsimp only
    rw [show (m.shift law.past).world.store.closure? (law.past.store.closures.size + c) =
      (m.world.store.closure? c).map (Closure.shift law.past.store) from Store.closure?_shift _ _ c]
    cases hcl : m.world.store.closure? c with
    | some cl => exact fares_startNested hm hl hcl hargs hlent
    | none => exact fares_crashed hm _
  | native info => exact fares_startNative hm hl none hargs
  | bound info receiver =>
    refine fares_startNative hm hl (some receiver) fun v hv => ?_
    rcases List.mem_cons.mp hv with rfl | hv
    · exact hcallee
    · exact hargs v hv
  | type t =>
    unfold invoke Value.shift
    dsimp only
    split
    · exact fares_startConstruction hm hl hargs t
    · exact fares_startConversion hm hl hargs t
  | _ => exact hrefuse _

/-!
# Outcomes
-/

theorem fares_endNested {o : Except Fault Value} (hm : m.Sound law) (hl : Waits law m.world.store l l')
    (hsn : m.world.store.HasFrame sn.frame) (ho : m.world.store.HasOutcome o) :
    Advance.Fares law m.world.store (endNested m l sn o)
      (endNested (m.shift law.past) l' (sn.shift law.past) (shiftOutcome law.past.store o)) := by
  cases o with
  | ok v => exact fares_deliver (m := { m with ip := sn.ip }) { hm with } hl (o := .ok v) ho
  | error f => exact fares_restored hm hl hsn f

theorem fares_endInstruction {o : Except Fault Value} (hm : m.Sound law)
    (hl : Waits law m.world.store l l') (ho : m.world.store.HasOutcome o) :
    Advance.Fares law m.world.store (endInstruction m l o)
      (endInstruction (m.shift law.past) l' (shiftOutcome law.past.store o)) := by
  cases o with
  | ok v =>
    show Advance.Fares law _ _ (.next ⟨{ m.shift law.past with
      stack := (m.stack.shift law.past).push (v.shift law.past.store), ip := m.ip + 1 }, l', .running⟩)
    rw [OperandStack.push_shift hm.backed v]
    exact fares_next (m := { m.withStack (m.stack.push v) with ip := m.ip + 1 }) { hm.push ho with } hl
      .running trivial
  | error f =>
    show Advance.Fares law _ (deliver m l (.error (m.locate f)))
      (deliver (m.shift law.past) l' (.error ((m.shift law.past).locate f)))
    rw [Machine.locate_shift hm.store hm.frame f]
    exact fares_deliver hm hl (o := .error _) trivial

theorem fares_handOut_cons {work work' : Pending} {o : Except Fault Value} (hm : m.Sound law)
    (hl : Waits law m.world.store l l') (hwork : work.Sound law m.world.store)
    (hsame : law.twin → work.Shifts law.past m.world.store work') (ho : m.world.store.HasOutcome o) :
    Advance.Fares law m.world.store (handOut m (work :: l) o)
      (handOut (m.shift law.past) (work' :: l') (shiftOutcome law.past.store o)) := by
  have hpopped : Machine.Sound law { m with natives := m.natives.pop } := { hm with }
  cases work with
  | nested sn =>
    have hnext := fares_endNested hm hl hwork ho
    refine ⟨hnext.sound, fun ht => ?_⟩
    cases hsame ht
    exact hnext.same ht
  | native info sn resume =>
    have hheeds := hwork.2 o m.world hm.store (.refl _) ho
    refine ⟨follow_sound hheeds rfl (w := m.world) hm hl hwork.1, fun ht => ?_⟩
    cases hsame ht with
    | native hresume =>
      exact follow_shifts ht hheeds (hresume o m.world hm.store (.refl _) ho) rfl (w := m.world) hm hl
        hwork.1
  | construct i =>
    have hmade : m.world.store.HasOutcome (o.map fun _ => .inst i) := by
      cases o with
      | ok v => exact hwork
      | error f => trivial
    have hnext := fares_deliver hpopped hl hmade
    refine ⟨hnext.sound, fun ht => ?_⟩
    cases hsame ht
    cases o with
    | ok v => exact hnext.same ht
    | error f => exact hnext.same ht
  | convert =>
    have hnext := fares_deliver hpopped hl ho
    refine ⟨hnext.sound, fun ht => ?_⟩
    cases hsame ht
    exact hnext.same ht
  | instruction =>
    have hnext := fares_endInstruction hm hl ho
    refine ⟨hnext.sound, fun ht => ?_⟩
    cases hsame ht
    exact hnext.same ht

theorem fares_handOut {o : Except Fault Value} (hm : m.Sound law) (hl : Waits law m.world.store l l')
    (ho : m.world.store.HasOutcome o) :
    Advance.Fares law m.world.store (handOut m l o)
      (handOut (m.shift law.past) l' (shiftOutcome law.past.store o)) := by
  cases l with
  | nil =>
    refine ⟨⟨hm, .refl, ho⟩, fun ht => ?_⟩
    cases hl.same ht
    exact .finished
  | cons work rest =>
    have hwork := hl.sound work List.mem_cons_self
    have hrest : ∀ w ∈ rest, w.Sound law m.world.store :=
      fun w hw => hl.sound w (List.mem_cons_of_mem work hw)
    by_cases ht : law.twin
    · cases hl.same ht with
      | cons hw hws => exact fares_handOut_cons hm ⟨hrest, fun _ => hws⟩ hwork (fun _ => hw) ho
    · have hnext : Advance.Fares law m.world.store (handOut m (work :: rest) o)
          (handOut (m.shift law.past) (work :: rest) (shiftOutcome law.past.store o)) :=
        fares_handOut_cons hm ⟨hrest, fun h => absurd h ht⟩ hwork (fun h => absurd h ht) ho
      exact ⟨hnext.sound, fun h => absurd h ht⟩

end

/-!
# Transitions and runs
-/

section
variable {law : Law} {s t : State}

theorem fares_advance {m : Machine} {l l' : List Pending} {mode : Mode} (hm : m.Sound law)
    (hl : Waits law m.world.store l l') (hmode : mode.Within m.world.store)
    (hlent : ∀ f name v, State.Entrusts ⟨m, l, mode⟩ f name v → law.lent f name v) :
    Advance.Fares law m.world.store (advance ⟨m, l, mode⟩)
      (advance ⟨m.shift law.past, l', mode.shift law.past.store⟩) := by
  cases mode with
  | running => exact fares_execute hm hl hlent
  | invoking callee args => exact fares_invoke hm hl hmode.1 hmode.2 hlent
  | delivering o => exact fares_handOut hm hl hmode

/-- A transition keeps everything in scope. -/
theorem Sound.advance (hs : s.Sound law) (halone : ¬ law.twin)
    (hlent : ∀ f name v, s.Entrusts f name v → law.lent f name v) :
    s.advance.Sound law s.machine.world.store := by
  have hwaits : Waits law s.machine.world.store s.pending s.pending :=
    ⟨hs.pending, fun ht => absurd ht halone⟩
  exact (fares_advance hs.machine hwaits hs.mode hlent).sound

/-- A run behind the past ends where the run without one does. -/
theorem Shifts.run (hs : s.Sound law) (hst : s.Shifts law.past t) (ht : law.twin)
    (hlent : ∀ f name v, law.lent f name v) (fuel : Nat) :
    (State.run fuel s = none ∧ State.run fuel t = none) ∨
      ∃ a a', State.run fuel s = some a ∧ State.run fuel t = some a' ∧
        a.Sound law s.machine.world.store ∧ a.Shifts law.past a' := by
  induction fuel generalizing s t with
  | zero => exact Or.inl ⟨rfl, rfl⟩
  | succ fuel ih =>
    obtain ⟨m', l', mode'⟩ := t
    obtain ⟨hmachine, hpending, hmode⟩ := hst
    have hnext := fares_advance hs.machine ⟨hs.pending, fun _ => hpending⟩ hs.mode
      fun f name v _ => hlent f name v
    rw [← hmachine, ← hmode] at hnext
    have hsound := hnext.sound
    have hshift := hnext.same ht
    unfold State.run
    change (State.advance s).Sound law s.machine.world.store at hsound
    change Advance.Shifts law.past (State.advance s) _ at hshift
    generalize State.advance s = a at hsound hshift
    generalize State.advance ⟨m', l', mode'⟩ = a' at hshift
    cases hshift with
    | @next s₁ t₁ h =>
      rcases ih hsound.1 h with hnone | ⟨a, a', ha, ha', hend, hends⟩
      · exact Or.inl hnone
      · exact Or.inr ⟨a, a', ha, ha', hend.after hsound.2, hends⟩
    | finished => exact Or.inr ⟨_, _, rfl, rfl, hsound, .finished⟩
    | crashed => exact Or.inr ⟨_, _, rfl, rfl, hsound, .crashed⟩

end
end State
end ScriptEngine
