import ScriptEngine.Proofs.Machine.Coordination
import ScriptEngine.Proofs.Native.Unplaced

/-!
# Runs that agree but for places

Of two runs, the engines differ in places only, the same work waits, natives with what they do next, and
both are about to do the same. Every transition keeps that, as long as no native looks at places: the
instructions are the same, and what is looked up in a debug table to put a failure into words is the kind
of the node around the instruction.
-/

namespace ScriptEngine

/-!
# Engines
-/

/-- The engines differ in places only, and both use the natives of the library `L`. -/
structure Machine.Agrees (L : Library) (a b : Machine) : Prop where
  same : a.unplaced = b.unplaced
  library : b.library = L

namespace Machine.Agrees

variable {L : Library} {a b : Machine}

/-- What looks the same without places is the same in engines that differ in places only. -/
theorem shows {α : Type} (h : a.Agrees L b) (f : Machine → α)
    (hf : ∀ m : Machine, f m.unplaced = f m) : f a = f b :=
  (hf a).symm.trans ((congrArg f h.same).trans (hf b))

theorem world (h : a.Agrees L b) : a.world.unplaced = b.world.unplaced :=
  congrArg Machine.world h.same

/-- A change to something else than the library that gets along with taking places out. -/
theorem map (h : a.Agrees L b) (f : Machine → Machine) (hf : ∀ m : Machine, (f m).unplaced = f m.unplaced)
    (hlibrary : (f b).library = b.library) : (f a).Agrees L (f b) :=
  ⟨(hf a).trans ((congrArg f h.same).trans (hf b).symm), hlibrary.trans h.library⟩

theorem withWorld {w w' : World} (h : a.Agrees L b) (hw : w.unplaced = w'.unplaced) :
    ({ a with world := w } : Machine).Agrees L { b with world := w' } := by
  refine ⟨?_, h.library⟩
  show ({ a.unplaced with world := w.unplaced } : Machine) = { b.unplaced with world := w'.unplaced }
  rw [h.same, hw]

theorem outOfNative (h : a.Agrees L b) : a.outOfNative.Agrees L b.outOfNative :=
  h.map Machine.outOfNative (fun _ => rfl) rfl

theorem restore (h : a.Agrees L b) (sn : Snapshot) : (a.restore sn).Agrees L (b.restore sn) :=
  h.map (·.restore sn) (fun _ => rfl) rfl

theorem symm (h : a.Agrees L b) : b.Agrees L a :=
  ⟨h.same.symm, (h.shows (·.library) fun _ => rfl).trans h.library⟩

/-- What one of the journals is told does not matter. -/
theorem tellOne (h : a.Agrees L b) (level : Level) (text : Machine → Text) :
    (a.tell level text).Agrees L b :=
  ⟨(a.tell_unplaced level text).trans h.same, h.library⟩

theorem tell (h : a.Agrees L b) (level : Level) (text text' : Machine → Text) :
    (a.tell level text).Agrees L (b.tell level text') :=
  ((h.tellOne level text).symm.tellOne level text').symm

theorem locate (h : a.Agrees L b) {f f' : Fault} (hf : f.unplaced = f'.unplaced) :
    (a.locate f).unplaced = (b.locate f').unplaced := by
  rw [← locate_unplaced, h.same, hf, locate_unplaced]

end Machine.Agrees

namespace Exec

variable {α : Type} {L : Library} {a b m : Machine}

/-- The library is there after the computation, unless it crashed. -/
def Offers (L : Library) : EStateM.Result Stop Machine α → Prop
  | .ok _ m => m.library = L
  | .error (.fault _) m => m.library = L
  | .error (.crash _) _ => True

theorem Works.offers {own : FrameId → Prop} {x : Exec α} {P : α → Prop} (h : Works own x m P) :
    Offers m.library (x m) := by
  unfold Works at h
  generalize x m = r at h
  cases r with
  | ok v m' => exact h.1.library
  | error e m' =>
    cases e with
    | crash => trivial
    | fault f => exact h.library

theorem Calling.offers {r : EStateM.Result Stop Machine Next} (h : Calling m r) : Offers m.library r := by
  cases h with
  | @stopped e m' h =>
    cases e with
    | crash => trivial
    | fault f => exact h.library
  | handed h => exact h.library
  | @entered m' c cl args h =>
    obtain ⟨j, hj⟩ := m'.entered_eq cl args false Text.empty
    rw [hj]
    exact h.library

/-- No instruction changes the library. -/
theorem offers_step (op : Op) (m : Machine) : Offers m.library (step op m) := by
  have hlocal : op.Local → Offers m.library (step op m) := fun h => (works_step h m).offers
  cases op with
  | call => exact (calling_call m).offers
  | dispatch op => exact (calling_dispatch op m).offers
  | ret =>
    have hstep := returning_ret m
    generalize step .ret m = r at hstep
    cases hstep with
    | crashed => trivial
    | ended h => exact h.library
    | done h => exact h.library
    | onward h => exact h.library
  | scopeEnter => exact rfl
  | scopeExit =>
    have hstep := closing_scopeExit m
    generalize step .scopeExit m = r at hstep
    cases hstep with
    | crashed => trivial
    | left => exact rfl
  | buildFunc d =>
    have hstep := building_buildFunc d m
    generalize step (.buildFunc d) m = r at hstep
    cases hstep with
    | @stopped e m' h =>
      cases e with
      | crash => trivial
      | fault f => exact h.library
    | built h => exact h.library
  | _ => exact hlocal trivial

/-- The results are the same but for places. -/
inductive Agrees (L : Library) :
    EStateM.Result Stop Machine α → EStateM.Result Stop Machine α → Prop
  | ok {x : α} {a b : Machine} (h : a.Agrees L b) : Agrees L (.ok x a) (.ok x b)
  | fault {f : Fault} {a b : Machine} (h : a.Agrees L b) :
    Agrees L (.error (.fault f) a) (.error (.fault f) b)
  | crash {message : Text} {a b : Machine} (h : a.unplaced = b.unplaced) :
    Agrees L (.error (.crash message) a) (.error (.crash message) b)

theorem Blind.agrees {x : Exec α} (hx : Blind Machine.unplaced x) (hoffers : Offers b.library (x b))
    (h : a.Agrees L b) : Agrees L (x a) (x b) := by
  have hview : viewed Machine.unplaced (x a) = viewed Machine.unplaced (x b) :=
    (hx a).symm.trans ((congrArg x h.same).trans (hx b))
  generalize x a = r at hview
  generalize x b = r' at hview hoffers
  cases r with
  | ok y a =>
    cases r' with
    | ok z b =>
      injection hview with hvalue hmachine
      subst hvalue
      exact .ok ⟨hmachine, hoffers.trans h.library⟩
    | error => cases hview
  | error e a =>
    cases r' with
    | ok => cases hview
    | error e' b =>
      injection hview with hstop hmachine
      subst hstop
      cases e with
      | fault f => exact .fault ⟨hmachine, hoffers.trans h.library⟩
      | crash message => exact .crash hmachine

/-- Instructions do not look at places. -/
theorem agrees_step (op : Op) (h : a.Agrees L b) : Agrees L (step op a) (step op b) := by
  refine Blind.agrees (fun m => ?_) (offers_step op b) h
  by_cases hop : op = .ret
  · subst hop
    exact Guise.placeless.blindAt_ret (g := id) (fun _ => rfl) rfl
  · exact Guise.placeless.blindAt_step (g := id) (fun _ => rfl) (fun _ => rfl) hop

/-- Entering a closure does not either: the place of the call is noted, and nothing else is done
with it. -/
theorem agrees_enterClosure (cl : Closure) (args : List Value) (reentry : Bool) (native : Text)
    (h : a.Agrees L b) :
    Agrees L (enterClosure cl args reentry native a) (enterClosure cl args reentry native b) := by
  refine Blind.agrees (fun m => ?_) ?_ h
  · have hcheck : Blind Machine.unplaced (checkCall cl args) :=
      blind_checkCall (Guise.placeless.view id) (fun _ => rfl) (fun _ => rfl) cl args
    unfold BlindAt
    rw [enterClosure_eq, enterClosure_eq]
    refine (hcheck m).bind fun _ m' _ => ?_
    exact congrArg (EStateM.Result.ok ())
      (Guise.placeless.entered (g := id) (f := id) (fun _ => rfl) rfl cl args native).symm
  · rcases enterClosure_spec cl args reentry native b with ⟨hok, -⟩ | ⟨f, hf⟩
    · obtain ⟨j, hj⟩ := b.entered_eq cl args reentry native
      rw [hok, hj]
      exact rfl
    · rw [hf]
      exact rfl

end Exec

/-!
# States
-/

/-- The same work waits, natives with what they do next. -/
inductive Pending.Agrees : Pending → Pending → Prop
  | nested {sn : Snapshot} : Agrees (.nested sn) (.nested sn)
  | native {info : NativeInfo} {sn : Snapshot} {resume resume' : Except Fault Value → World → Action}
    (h : ∀ o o' w w', unplacedOutcome o = unplacedOutcome o' → w.unplaced = w'.unplaced →
      (resume o w).Agrees (resume' o' w')) : Agrees (.native info sn resume) (.native info sn resume')
  | construct {i : InstanceId} : Agrees (.construct i) (.construct i)
  | convert : Agrees .convert .convert
  | instruction : Agrees .instruction .instruction

/-- The same is done next. -/
inductive Mode.Agrees : Mode → Mode → Prop
  | running : Agrees .running .running
  | invoking {callee : Value} {args : List Value} :
    Agrees (.invoking callee args) (.invoking callee args)
  | delivering {o o' : Except Fault Value} (h : unplacedOutcome o = unplacedOutcome o') :
    Agrees (.delivering o) (.delivering o')

/-- The states agree but for places. -/
structure State.Agrees (L : Library) (s t : State) : Prop where
  machine : s.machine.Agrees L t.machine
  pending : List.Forall₂ Pending.Agrees s.pending t.pending
  mode : s.mode.Agrees t.mode

/-- The transitions lead to states that agree, or to the same end. -/
inductive Advance.Agrees (L : Library) : Advance → Advance → Prop
  | next {s t : State} (h : s.Agrees L t) : Agrees L (.next s) (.next t)
  | finished {o o' : Except Fault Value} {a b : Machine} (h : a.Agrees L b)
    (ho : unplacedOutcome o = unplacedOutcome o') : Agrees L (.finished o a) (.finished o' b)
  | crashed {message : Text} {a b : Machine} (h : a.unplaced = b.unplaced) :
    Agrees L (.crashed message a) (.crashed message b)

section
variable {L : Library} {a b : Machine} {l l' : List Pending}

theorem agrees_deliver (h : a.Agrees L b) (hl : List.Forall₂ Pending.Agrees l l')
    {o o' : Except Fault Value} (ho : unplacedOutcome o = unplacedOutcome o') :
    Advance.Agrees L (State.deliver a l o) (State.deliver b l' o') :=
  .next ⟨h, hl, .delivering ho⟩

theorem agrees_fault (h : a.Agrees L b) (hl : List.Forall₂ Pending.Agrees l l')
    {f f' : Fault} (hf : f.unplaced = f'.unplaced) :
    Advance.Agrees L (State.deliver a l (.error f)) (State.deliver b l' (.error f')) :=
  agrees_deliver h hl (congrArg Except.error hf)

theorem agrees_refuse (h : a.Agrees L b) (hl : List.Forall₂ Pending.Agrees l l')
    (f : Failure) (message : Text) :
    Advance.Agrees L (State.refuse a l f message) (State.refuse b l' f message) :=
  agrees_deliver h hl rfl

/-!
# Instructions
-/

theorem agrees_proceed (h : a.Agrees L b) (hl : List.Forall₂ Pending.Agrees l l')
    (n : Exec.Next) : Advance.Agrees L (State.proceed l n a) (State.proceed l' n b) := by
  cases n with
  | next => exact .next ⟨h.map (fun m => { m with ip := m.ip + 1 }) (fun _ => rfl) rfl, hl, .running⟩
  | skip d =>
    exact .next ⟨h.map (fun m => { m with ip := Number.wrapWord (m.ip + 1 + d) }) (fun _ => rfl) rfl, hl, .running⟩
  | stay => exact .next ⟨h, hl, .running⟩
  | call callee args => exact .next ⟨h, .cons .instruction hl, .invoking⟩
  | done v => exact agrees_deliver h hl rfl

theorem agrees_execute (h : a.Agrees L b) (hl : List.Forall₂ Pending.Agrees l l') :
    Advance.Agrees L (State.execute a l) (State.execute b l') := by
  have hprogram : a.program.map Program.unplaced = b.program.map Program.unplaced :=
    congrArg Machine.program h.same
  have hip : a.ip = b.ip := h.shows (·.ip) fun _ => rfl
  have hcalls : a.calls = b.calls := h.shows (·.calls) fun _ => rfl
  have htrace : a.options = b.options := h.shows (·.options) fun _ => rfl
  unfold State.execute
  rw [hip, hcalls, htrace]
  -- Where the code ends is read off the program, which the engines share but for its debug table.
  cases hp : a.program with
  | none =>
    cases hq : b.program with
    | none => exact .crashed h.same
    | some q => rw [hp, hq] at hprogram; cases hprogram
  | some p =>
    cases hq : b.program with
    | none => rw [hp, hq] at hprogram; cases hprogram
    | some q =>
      have hsize : p.size = q.size := by
        rw [hp, hq, Option.map_some, Option.map_some] at hprogram
        injection hprogram with hprogram
        show p.unplaced.size = q.unplaced.size
        rw [hprogram]
      dsimp only
      rw [hsize]
      split
      · split
        · exact agrees_deliver h hl rfl
        · exact agrees_refuse h hl _ _
      split
      · exact .crashed h.same
      have htold : (if b.options.trace then a.tell .debug State.traceLine else a).Agrees L
          (if b.options.trace then b.tell .debug State.traceLine else b) := by
        split
        · exact h.tell ..
        · exact h
      generalize (if b.options.trace then a.tell .debug State.traceLine else a) = a' at htold
      generalize (if b.options.trace then b.tell .debug State.traceLine else b) = b' at htold
      rw [show a'.ops[a'.ip.toNat]? = b'.ops[b'.ip.toNat]? from
        htold.shows (fun m => m.ops[m.ip.toNat]?) fun _ => rfl]
      cases b'.ops[b'.ip.toNat]? with
      | none => exact .crashed htold.same
      | some op =>
        have hstep := Exec.agrees_step op htold
        dsimp only
        generalize Exec.step op a' = r at hstep
        generalize Exec.step op b' = r' at hstep
        cases hstep with
        | ok h => exact agrees_proceed h hl _
        | fault h => exact agrees_fault h hl (h.locate rfl)
        | crash h => exact .crashed h

/-!
# Natives
-/

theorem agrees_failNative (h : a.Agrees L b) (hl : List.Forall₂ Pending.Agrees l l')
    (info : NativeInfo) (sn : Snapshot) {f f' : Fault} (hf : f.unplaced = f'.unplaced) :
    Advance.Agrees L (State.failNative a l info sn f) (State.failNative b l' info sn f') := by
  have hout := h.outOfNative
  have hback := hout.restore sn
  have hfault : (State.nativeFault (a.outOfNative.restore sn) info f).unplaced =
      (State.nativeFault (b.outOfNative.restore sn) info f').unplaced := by
    rw [← Machine.nativeFault_unplaced, hback.same, hf, Machine.nativeFault_unplaced]
  unfold State.failNative
  dsimp only
  rw [show ({ a with natives := a.natives.pop } : Machine).covers sn =
    ({ b with natives := b.natives.pop } : Machine).covers sn from
      hout.shows (·.covers sn) fun _ => rfl]
  split
  · refine agrees_fault ?_ hl hfault
    -- Only a fault that was not located yet is told to the journal, and both are or neither is.
    cases f with
    | located =>
      cases f' with
      | located => exact hback
      | raised | foreign => cases hf
    | raised | foreign =>
      cases f' with
      | located => cases hf
      | raised | foreign => exact hback.tell ..
  · exact .crashed hout.same

theorem agrees_follow (h : a.Agrees L b) (hl : List.Forall₂ Pending.Agrees l l')
    (info : NativeInfo) (sn : Snapshot) {x y : Action} (hxy : x.Agrees y) :
    Advance.Agrees L (State.follow a l info sn x) (State.follow b l' info sn y) := by
  -- By induction on the pairing of the actions: what the engine answers is the same in both.
  induction hxy generalizing a b with
  | done hw =>
    exact agrees_deliver (h.withWorld hw).outOfNative hl rfl
  | fail hf hw => exact agrees_failNative (h.withWorld hw) hl info sn hf
  | crash hw => exact .crashed (h.withWorld hw).same
  | invoke hw hresume => exact .next ⟨h.withWorld hw, .cons (.native hresume) hl, .invoking⟩
  | depth hw _ ih =>
    unfold State.follow
    rw [show a.stack.height = b.stack.height from
      h.shows (·.stack.height) fun _ => rfl]
    exact ih _ _ _ hw h
  | save hw _ ih =>
    unfold State.follow
    rw [show a.snapshot = b.snapshot from h.shows (·.snapshot) fun _ => rfl]
    exact ih _ _ _ hw h
  | @restore back _ _ _ _ hw _ ih =>
    unfold State.follow
    rw [show a.covers back = b.covers back from
      h.shows (·.covers back) fun _ => rfl]
    split
    · exact ih _ _ hw (h.restore back)
    · exact .crashed (h.withWorld hw).same

theorem agrees_handOver (h : a.Agrees L b) (hl : List.Forall₂ Pending.Agrees l l')
    (info : NativeInfo) (sn : Snapshot) {action action' : World → Action}
    (hact : (action a.world).Agrees (action' b.world)) :
    Advance.Agrees L (State.handOver a l info sn action) (State.handOver b l' info sn action') :=
  agrees_follow (h.withWorld rfl) hl info sn hact

theorem agrees_startNative (hL : L.IgnoresPlaces) (h : a.Agrees L b)
    (hl : List.Forall₂ Pending.Agrees l l') (info : NativeInfo) (receiver : Option Value)
    (args : List Value) :
    Advance.Agrees L (State.startNative a l info receiver args)
      (State.startNative b l' info receiver args) := by
  have henter : ∀ all, Advance.Agrees L (State.enterNative a l info all)
      (State.enterNative b l' info all) := by
    intro all
    have hact : (a.library.behaviour info all a.world).Agrees
        (b.library.behaviour info all b.world) := by
      rw [h.shows (·.library) fun _ => rfl, h.library]
      exact hL info all _ _ h.world
    unfold State.enterNative
    rw [show a.natives = b.natives from h.shows (·.natives) fun _ => rfl]
    split
    · exact agrees_refuse h hl _ _
    · dsimp only
      rw [show a.snapshot = b.snapshot from h.shows (·.snapshot) fun _ => rfl]
      refine agrees_handOver ?_ hl info _ hact
      exact h.map (fun m => { m with natives := b.natives.push info.name }) (fun _ => rfl) rfl
  unfold State.startNative
  dsimp only
  split
  · split
    · exact agrees_refuse h hl _ _
    · exact henter _
  · exact henter _

/-!
# Starting calls
-/

theorem agrees_manage (h : a.Agrees L b) (hl : List.Forall₂ Pending.Agrees l l')
    {work : Pending} (hwork : work.Agrees work) (callee : Value) (args : List Value) :
    Advance.Agrees L (State.manage a l work callee args) (State.manage b l' work callee args) :=
  .next ⟨h.map (fun m => { m with natives := m.natives.push Text.empty }) (fun _ => rfl) rfl,
    .cons hwork hl, .invoking⟩

theorem agrees_startConversion (h : a.Agrees L b) (hl : List.Forall₂ Pending.Agrees l l')
    (t : TypeInfo) (args : List Value) :
    Advance.Agrees L (State.startConversion a l t args) (State.startConversion b l' t args) := by
  unfold State.startConversion
  split
  · rename_i v
    rw [h.shows (·.world.store.typeName v) fun m => m.typeName_unplaced v,
      h.shows (·.resolve _) fun m => m.resolve_unplaced _]
    split
    · exact agrees_manage h hl .convert _ _
    · have hresult := (Exec.blind_convert (Guise.placeless.view id) v t.name).agrees
        (Exec.quiet_convert v t.name b).offers h
      unfold State.convertValue
      generalize Exec.effect (Native.convert v t.name) a = r at hresult
      generalize Exec.effect (Native.convert v t.name) b = r' at hresult
      cases hresult with
      | ok h => exact agrees_deliver h hl rfl
      | fault h => exact agrees_fault h hl rfl
      | crash h => exact .crashed h
  · exact agrees_refuse h hl _ _

theorem fill_guised {g : Frame → Frame} (s : Store) (i : InstanceId) (pairs : List (Text × Value)) :
    State.startConstruction.fill (s.guised g) i pairs =
      (State.startConstruction.fill s i pairs).guised g := by
  induction pairs generalizing s with
  | nil => rfl
  | cons p rest ih => exact ih (s.setField i p.1 p.2)

theorem agrees_startConstruction (h : a.Agrees L b) (hl : List.Forall₂ Pending.Agrees l l')
    (t : TypeInfo) (args : List Value) :
    Advance.Agrees L (State.startConstruction a l t args) (State.startConstruction b l' t args) := by
  have hview := Guise.placeless.view id
  have hnew := (Exec.blind_onStore hview (f := fun s => s.newInstance t) fun s =>
    s.newInstance_guised t).agrees rfl h
  unfold State.startConstruction
  generalize Exec.onStore (fun s => s.newInstance t) a = r at hnew
  generalize Exec.onStore (fun s => s.newInstance t) b = r' at hnew
  cases hnew with
  | fault h => exact .crashed h.same
  | crash h => exact .crashed h
  | @ok i a b h =>
    dsimp only
    rw [h.shows (·.resolve _) fun m => m.resolve_unplaced _]
    split
    · exact agrees_manage h hl .construct _ _
    · split
      · exact agrees_deliver h hl rfl
      split
      · have hfill := (Exec.blind_change hview (State.startConstruction.fill · i (t.fields.zip args))
          fun s => fill_guised s i _).agrees rfl h
        generalize Exec.onStore (fun s => ((), State.startConstruction.fill s i (t.fields.zip args))) a
          = r at hfill
        generalize Exec.onStore (fun s => ((), State.startConstruction.fill s i (t.fields.zip args))) b
          = r' at hfill
        cases hfill with
        | ok h => exact agrees_deliver h hl rfl
        | fault h => exact .crashed h.same
        | crash h => exact .crashed h
      · exact agrees_refuse h hl _ _

/-- A fault for waiting work, whose depths are restored. -/
theorem agrees_restored (h : a.Agrees L b) (hl : List.Forall₂ Pending.Agrees l l')
    (sn : Snapshot) {f f' : Fault} (hf : f.unplaced = f'.unplaced) :
    Advance.Agrees L
      (if a.covers sn then State.deliver (a.restore sn) l (.error f)
        else .crashed Machine.restoreCrash a)
      (if b.covers sn then State.deliver (b.restore sn) l' (.error f')
        else .crashed Machine.restoreCrash b) := by
  rw [h.shows (·.covers sn) fun _ => rfl]
  split
  · exact agrees_fault (h.restore sn) hl hf
  · exact .crashed h.same

theorem agrees_startNested (h : a.Agrees L b) (hl : List.Forall₂ Pending.Agrees l l')
    (cl : Closure) (args : List Value) :
    Advance.Agrees L (State.startNested a l cl args) (State.startNested b l' cl args) := by
  have henter := Exec.agrees_enterClosure cl args true (b.natives.back?.getD Text.empty) h
  unfold State.startNested
  dsimp only
  rw [h.shows (·.snapshot) fun _ => rfl,
    show a.natives = b.natives from h.shows (·.natives) fun _ => rfl]
  generalize Exec.enterClosure cl args true (b.natives.back?.getD Text.empty) a = r at henter
  generalize Exec.enterClosure cl args true (b.natives.back?.getD Text.empty) b = r' at henter
  cases henter with
  | ok h => exact .next ⟨h, .cons .nested hl, .running⟩
  | fault h => exact agrees_restored h hl b.snapshot rfl
  | crash h => exact .crashed h

theorem agrees_invoke (hL : L.IgnoresPlaces) (h : a.Agrees L b)
    (hl : List.Forall₂ Pending.Agrees l l') (callee : Value) (args : List Value) :
    Advance.Agrees L (State.invoke a l callee args) (State.invoke b l' callee args) := by
  cases callee with
  | closure c =>
    unfold State.invoke
    dsimp only
    rw [h.shows (·.world.store.closure? c) fun _ => rfl]
    split
    · exact agrees_startNested h hl _ args
    · exact .crashed h.same
  | native info => exact agrees_startNative hL h hl info none args
  | bound info receiver => exact agrees_startNative hL h hl info (some receiver) args
  | type t =>
    unfold State.invoke
    dsimp only
    split
    · exact agrees_startConstruction h hl t args
    · exact agrees_startConversion h hl t args
  | _ =>
    unfold State.invoke
    dsimp only
    rw [h.shows (·.world.store.typeName _) fun m => m.typeName_unplaced _]
    exact agrees_refuse h hl _ _

/-!
# Handing over outcomes
-/

/-- Outcomes that differ in places only are both values, the same one, or both faults. -/
theorem unplacedOutcome_cases {o o' : Except Fault Value} (h : unplacedOutcome o = unplacedOutcome o') :
    (∃ v, o = .ok v ∧ o' = .ok v) ∨
      ∃ f f', o = .error f ∧ o' = .error f' ∧ f.unplaced = f'.unplaced := by
  cases o with
  | ok v =>
    cases o' with
    | ok v' =>
      cases h
      exact Or.inl ⟨v, rfl, rfl⟩
    | error => cases h
  | error f =>
    cases o' with
    | ok => cases h
    | error f' => exact Or.inr ⟨f, f', rfl, rfl, Except.error.inj h⟩

theorem agrees_handOut (h : a.Agrees L b) (hl : List.Forall₂ Pending.Agrees l l')
    {o o' : Except Fault Value} (ho : unplacedOutcome o = unplacedOutcome o') :
    Advance.Agrees L (State.handOut a l o) (State.handOut b l' o') := by
  have hout := h.outOfNative
  cases hl with
  | nil => exact .finished h ho
  | cons hx hl =>
    cases hx with
    | native hresume => exact agrees_handOver h hl _ _ (hresume o o' _ _ ho h.world)
    | convert => exact agrees_deliver hout hl ho
    | construct =>
      rcases unplacedOutcome_cases ho with ⟨v, rfl, rfl⟩ | ⟨f, f', rfl, rfl, hf⟩
      · exact agrees_deliver hout hl rfl
      · exact agrees_fault hout hl hf
    | @nested sn =>
      rcases unplacedOutcome_cases ho with ⟨v, rfl, rfl⟩ | ⟨f, f', rfl, rfl, hf⟩
      · exact agrees_deliver (h.map (fun m => { m with ip := sn.ip }) (fun _ => rfl) rfl)
          hl rfl
      · exact agrees_restored h hl sn hf
    | instruction =>
      rcases unplacedOutcome_cases ho with ⟨v, rfl, rfl⟩ | ⟨f, f', rfl, rfl, hf⟩
      · exact .next ⟨h.map (fun m => { m with stack := m.stack.push v, ip := m.ip + 1 }) (fun _ => rfl) rfl,
          hl, .running⟩
      · exact agrees_fault h hl (h.locate hf)

end

/-!
# Runs
-/

/-- One transition keeps states in agreement. -/
theorem State.Agrees.advance {L : Library} {s t : State} (hL : L.IgnoresPlaces)
    (h : State.Agrees L s t) : Advance.Agrees L s.advance t.advance := by
  obtain ⟨a, l, mode⟩ := s
  obtain ⟨b, l', mode'⟩ := t
  obtain ⟨hm, hl, hmode⟩ := h
  cases hmode with
  | running => exact agrees_execute hm hl
  | invoking => exact agrees_invoke hL hm hl _ _
  | delivering ho => exact agrees_handOut hm hl ho

/-- Runs from states in agreement take the same number of transitions, and end in agreement. -/
theorem State.Agrees.run {L : Library} {s t : State} (hL : L.IgnoresPlaces)
    (h : State.Agrees L s t) (fuel : Nat) :
    (State.run fuel s = none ∧ State.run fuel t = none) ∨
      ∃ e e', State.run fuel s = some e ∧ State.run fuel t = some e' ∧ Advance.Agrees L e e' := by
  induction fuel generalizing s t with
  | zero => exact Or.inl ⟨rfl, rfl⟩
  | succ fuel ih =>
    have hadvance := h.advance hL
    unfold State.run
    generalize s.advance = e at hadvance
    generalize t.advance = e' at hadvance
    cases hadvance with
    | next h => exact ih h
    | finished hm ho => exact Or.inr ⟨_, _, rfl, rfl, .finished hm ho⟩
    | crashed h => exact Or.inr ⟨_, _, rfl, rfl, .crashed h⟩

end ScriptEngine
