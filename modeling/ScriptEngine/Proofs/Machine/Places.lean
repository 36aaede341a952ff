import ScriptEngine.Proofs.Machine.Usage

/-!
# The place of the program itself

While calls are in progress or natives run, the program itself waits at an instruction: that of its
outermost call. Its place only changes when it is back, behind that instruction, or when it runs itself
and no call begins.
-/

namespace ScriptEngine

/-- The place of the outermost call, or the given place if no call is in progress. -/
def CallRecord.outermost (calls : Array CallRecord) (ip : Int) : Int :=
  (calls[0]?.map (·.callIp)).getD ip

/-- The place in the program where the program itself stands. A nested run that is over gives back the
place where it began. -/
def State.place (s : State) : Int :=
  CallRecord.outermost s.machine.calls <|
    match s.mode with
    | .delivering _ =>
      match s.pending with
      | .nested sn :: _ => sn.ip
      | _ => s.machine.ip
    | _ => s.machine.ip

/-- The program itself is at an instruction. -/
def State.Free (s : State) : Prop :=
  s.mode = .running ∧ s.machine.calls = #[]

/-- How the place of the program itself changes in a transition. -/
inductive State.Course (s s' : State) : Prop
  | within (hplace : s'.place = s.place) (hfree : ¬ s'.Free)
  | back (hplace : s'.place = s.place + 1) (hs : ¬ s.Free) (hfree : s'.Free)
  | onward {op : Op} {n : Exec.Next} (hs : s.Free)
    (hop : s.machine.ops[s.machine.ip.toNat]? = some op) (hn : n = .next ∨ n = .skip op.reach)
    (hplace : s'.place = n.target s.place) (hfree : s'.Free)

/-- The transition keeps to that, or ends the run. -/
def Advance.Course (s : State) : Advance → Prop
  | .next s' => s.Course s'
  | _ => True

section
variable {r : Regime} {st : Store} {m m' : Machine} {pending : List Pending} {g : Ground} {b : FrameId}
  {inCall : Bool} {q : Posture} {calls : Array CallRecord} {ip : Int} {s : State}

namespace CallRecord

@[simp] theorem outermost_empty : outermost #[] ip = ip := rfl

theorem outermost_push (record : CallRecord) : outermost (calls.push record) ip =
    outermost calls record.callIp := by
  unfold outermost
  cases hsize : calls.size with
  | zero =>
    obtain rfl := Array.eq_empty_of_size_eq_zero hsize
    rfl
  | succ n =>
    have hpos : 0 < calls.size := by omega
    rw [Array.getElem?_push_lt hpos, Array.getElem?_eq_getElem hpos]
    rfl

theorem outermost_congr (h : calls ≠ #[]) (ip' : Int) : outermost calls ip = outermost calls ip' := by
  have hpos : 0 < calls.size := by
    rw [Nat.pos_iff_ne_zero]
    exact fun hsize => h (Array.eq_empty_of_size_eq_zero hsize)
  unfold outermost
  rw [Array.getElem?_eq_getElem hpos]
  rfl

end CallRecord

open CallRecord

theorem State.Free.place (h : s.Free) : s.place = s.machine.ip := by
  obtain ⟨m, pending, mode⟩ := s
  obtain ⟨rfl, hcalls⟩ : mode = .running ∧ m.calls = #[] := h
  show outermost m.calls m.ip = m.ip
  rw [hcalls, outermost_empty]

theorem State.place_delivering {o : Except Fault Value}
    (h : ∀ sn rest, pending = .nested sn :: rest → m.calls ≠ #[]) :
    State.place ⟨m, pending, .delivering o⟩ = outermost m.calls m.ip := by
  cases pending with
  | nil => rfl
  | cons work rest =>
    cases work with
    | nested sn => exact outermost_congr (h sn rest rfl) _
    | _ => rfl

theorem State.not_free_delivering {o : Except Fault Value} : ¬ State.Free ⟨m, pending, .delivering o⟩ :=
  fun h => by cases h.1

theorem State.not_free_invoking {callee : Value} {args : List Value} :
    ¬ State.Free ⟨m, pending, .invoking callee args⟩ :=
  fun h => by cases h.1

/-!
# Levels
-/

/-- An activation without calls is the program itself, so nothing waits. -/
theorem Stands.alone (hfloor : r.floor = none) (h : Stands r st pending (.active g b inCall))
    (hcalls : g.calls = #[]) : pending = [] := by
  cases h with
  | floor h => exact absurd h (Regime.floor_ne hfloor _)
  | top => rfl
  | called => exact absurd hcalls (Array.push_ne_empty)
  | nested => exact absurd hcalls (Array.push_ne_empty)

/-- No nested run is over where work waits for an outcome. -/
theorem Stands.waiting_ne (hfloor : r.floor = none) (h : Stands r st pending (.waiting q))
    (sn : Snapshot) (rest : List Pending) : pending ≠ .nested sn :: rest := by
  cases h with
  | floor h =>
    rw [hfloor] at h
    cases h
  | _ => exact fun h => by cases h

/-- Where the outermost call of a nested run was made shows in its snapshot too. -/
theorem Stands.outermost_nested (hfloor : r.floor = none) {sn : Snapshot} {rest : List Pending}
    (h : Stands r st (.nested sn :: rest) (.active g b inCall)) :
    ∃ q : Posture, sn = q.snapshot ∧ Stands r st rest (.waiting q) ∧
      q.calls.toList <+: g.calls.toList ∧ ∀ ip, outermost g.calls ip = outermost q.calls q.ip := by
  generalize hpending : Pending.nested sn :: rest = pending at h
  generalize hfooting : Footing.active g b inCall = footing at h
  induction h generalizing g b inCall with
  | @called pending g₀ b₀ _ inCall₀ a q i around _ hq _ _ _ _ ih =>
    cases hfooting
    obtain ⟨q', hsn, hwaits, hbelow, houter⟩ := ih hpending rfl
    rw [← hq.calls] at hbelow houter
    refine ⟨q', hsn, hwaits, ?_, fun ip => ?_⟩
    · show _ <+: (q.calls.push _).toList
      rw [Array.toList_push]
      exact hbelow.trans (List.prefix_append _ _)
    · show outermost (q.calls.push _) ip = _
      rw [outermost_push]
      exact houter q.ip
  | @nested pending _ q around h =>
    cases hfooting
    cases hpending
    refine ⟨q, rfl, h, ?_, fun ip => ?_⟩
    · show _ <+: (q.calls.push _).toList
      rw [Array.toList_push]
      exact List.prefix_append _ _
    · show outermost (q.calls.push _) ip = _
      rw [outermost_push]
  | top => cases hpending
  | floor h => exact absurd h (Regime.floor_ne hfloor _)
  | instruction => cases hfooting
  | construct => cases hfooting
  | convert => cases hfooting
  | native => cases hfooting

/-!
# Instructions
-/

/-- An operation goes on with the next one, or with the one at its distance. -/
theorem Op.Local.onward {op : Op} {n : Exec.Next} (h : op.Local) (hn : op.Continues n) :
    n = .next ∨ n = .skip op.reach := by
  cases op <;> first | exact h.elim | exact Or.inl hn | exact Or.inr hn | exact hn

section
variable (hfloor : r.floor = none) (hs : Stands r st pending (.active g b inCall))
  (hcalls : m.calls = g.calls)
include hfloor hs hcalls

/-- A fault of an activation, or the end of the program. -/
theorem course_stopped {o : Except Fault Value} (hm : m'.calls = m.calls) (hip : m'.ip = m.ip) :
    State.Course ⟨m, pending, .running⟩ ⟨m', pending, .delivering o⟩ := by
  refine .within ?_ State.not_free_delivering
  rw [State.place_delivering, hm, hip]
  · rfl
  · rintro sn rest rfl
    rw [hm, hcalls]
    exact fun h => by cases hs.alone hfloor h

omit hfloor hs hcalls in
theorem course_onward {op : Op} {n : Exec.Next} (hop : m.ops[m.ip.toNat]? = some op)
    (hn : n = .next ∨ n = .skip op.reach) (hm : m'.calls = m.calls) (hip : m'.ip = m.ip) :
    Advance.Course ⟨m, pending, .running⟩ (State.proceed pending n m') := by
  have hmoved : State.Course ⟨m, pending, .running⟩
      ⟨{ m' with ip := n.target m'.ip }, pending, .running⟩ := by
    by_cases hfree : m.calls = #[]
    · refine @State.Course.onward _ _ op n ⟨rfl, hfree⟩ hop hn ?_ ⟨rfl, hm.trans hfree⟩
      show outermost m'.calls (n.target m'.ip) = n.target (outermost m.calls m.ip)
      rw [hm, hfree, outermost_empty, outermost_empty, hip]
    · refine .within ?_ fun h => hfree (hm.symm.trans h.2)
      show outermost m'.calls _ = outermost m.calls _
      rw [hm]
      exact outermost_congr hfree _
  rcases hn with rfl | rfl <;> exact hmoved

theorem course_calling {j : Journal} {res : EStateM.Result Stop Machine Exec.Next}
    (h : Exec.Calling (m.withJournal j) res) :
    Advance.Course ⟨m, pending, .running⟩ (State.after pending res) := by
  cases h with
  | @stopped e m' h =>
    cases e with
    | fault f => exact course_stopped hfloor hs hcalls h.calls h.ip
    | crash message => trivial
  | @handed callee args m' h =>
    refine .within ?_ State.not_free_invoking
    show outermost m'.calls m'.ip = outermost m.calls m.ip
    rw [h.calls, h.ip]
    rfl
  | @entered m' c cl args h =>
    obtain ⟨j', hj'⟩ := m'.entered_eq cl args false Text.empty
    have hentered : (m'.entered cl args false Text.empty).calls =
        m.calls.push ⟨m.ip, m'.stack.height, false⟩ := by
      rw [hj']
      show m'.calls.push ⟨m'.ip, _, _⟩ = _
      rw [h.calls, h.ip]
      rfl
    refine .within ?_ fun h => ?_
    · show outermost (m'.entered cl args false Text.empty).calls _ = outermost m.calls m.ip
      rw [hentered, outermost_push]
    · have hempty := h.2
      rw [hentered] at hempty
      exact Array.push_ne_empty hempty

/-- A return gives back the place of the call, which is that of the program if no other call is in
progress. -/
theorem course_returning {j : Journal} {res : EStateM.Result Stop Machine Exec.Next}
    (h : Exec.Returning (m.withJournal j) res) :
    Advance.Course ⟨m, pending, .running⟩ (State.after pending res) := by
  cases h with
  | crashed => trivial
  | ended h => exact course_stopped hfloor hs hcalls h.calls h.ip
  | @done v m' record b' fr j' h hrecord hreentry =>
    have hm : m'.calls = g.calls := h.calls.trans hcalls
    rw [hm] at hrecord
    refine .within ?_ State.not_free_delivering
    cases hs with
    | floor h => exact absurd h (Regime.floor_ne hfloor _)
    | top => cases hrecord
    | called =>
      rw [show (Posture.ground _ _ false).calls = _ from rfl, Posture.ground, Array.back?_push] at hrecord
      cases hrecord
      cases hreentry
    | @nested pending _ q around =>
      show outermost m'.calls.pop q.ip = outermost m.calls m.ip
      rw [hm, hcalls]
      show outermost (q.calls.push _).pop q.ip = outermost (q.calls.push _) m.ip
      rw [Array.pop_push, outermost_push]
  | @onward v m' record b' fr j' h hrecord hreentry =>
    have hm : m'.calls = g.calls := h.calls.trans hcalls
    rw [hm] at hrecord
    cases hs with
    | floor h => exact absurd h (Regime.floor_ne hfloor _)
    | top => cases hrecord
    | nested =>
      rw [Posture.ground, Array.back?_push] at hrecord
      cases hrecord
      cases hreentry
    | @called pending g₀ b₀ _ inCall₀ a q i around h₀ hq =>
      rw [Posture.ground, Array.back?_push] at hrecord
      cases hrecord
      have hpop : m'.calls.pop = q.calls := by
        rw [hm]
        exact Array.pop_push
      have hplace : State.place ⟨m, pending, .running⟩ = outermost q.calls q.ip := by
        show outermost m.calls m.ip = _
        rw [hcalls]
        exact outermost_push _
      by_cases hfree : q.calls = #[]
      · refine .back ?_ (fun h => ?_) ⟨rfl, hpop.trans hfree⟩
        · rw [hplace, hfree]
          show outermost m'.calls.pop (q.ip + 1) = _
          rw [hpop, hfree]
          rfl
        · have hempty := hcalls.symm.trans h.2
          exact Array.push_ne_empty hempty
      · refine .within ?_ fun h => hfree (hpop.symm.trans h.2)
        rw [hplace]
        show outermost m'.calls.pop (q.ip + 1) = _
        rw [hpop]
        exact outermost_congr hfree _

theorem course_step {op : Op} {j : Journal} (hop : m.ops[m.ip.toNat]? = some op) :
    Advance.Course ⟨m, pending, .running⟩
      (State.after pending (Exec.step op (m.withJournal j))) := by
  have hlocal : op.Local → Advance.Course ⟨m, pending, .running⟩
      (State.after pending (Exec.step op (m.withJournal j))) := by
    intro hlocal
    have hstep := Exec.works_step hlocal (m.withJournal j)
    unfold Exec.Works at hstep
    cases hrun : Exec.step op (m.withJournal j) with
    | ok n m' =>
      rw [hrun] at hstep
      exact course_onward hop (hlocal.onward (Exec.yields_step op _ _ _ hrun)) hstep.1.calls hstep.1.ip
    | error e m' =>
      rw [hrun] at hstep
      cases e with
      | crash message => trivial
      | fault f => exact course_stopped hfloor hs hcalls hstep.calls hstep.ip
  cases op with
  | call => exact course_calling hfloor hs hcalls (Exec.calling_call _)
  | dispatch op => exact course_calling hfloor hs hcalls (Exec.calling_dispatch op _)
  | ret => exact course_returning hfloor hs hcalls (Exec.returning_ret _)
  | scopeEnter => exact course_onward hop (Or.inl rfl) rfl rfl
  | scopeExit =>
    have hstep := Exec.closing_scopeExit (m.withJournal j)
    generalize Exec.step .scopeExit (m.withJournal j) = res at hstep
    cases hstep with
    | crashed => trivial
    | left => exact course_onward hop (Or.inl rfl) rfl rfl
  | buildFunc d =>
    have hstep := Exec.building_buildFunc d (m.withJournal j)
    generalize Exec.step (.buildFunc d) (m.withJournal j) = res at hstep
    cases hstep with
    | @stopped e m' h =>
      cases e with
      | crash message => trivial
      | fault f => exact course_stopped hfloor hs hcalls h.calls h.ip
    | built h => exact course_onward hop (Or.inr rfl) h.calls h.ip
  | _ => exact hlocal trivial

theorem course_execute :
    Advance.Course ⟨m, pending, .running⟩ (State.execute m pending) := by
  rcases State.execute_cases m pending with ⟨_, _, h⟩ | ⟨h, -⟩ | ⟨f, h⟩ | ⟨op, j, -, hop, h⟩
  · rw [h]
    trivial
  · rw [h]
    exact course_stopped hfloor hs hcalls rfl rfl
  · rw [h]
    exact course_stopped hfloor hs hcalls rfl rfl
  · rw [h]
    exact course_step hfloor hs hcalls hop

end

/-!
# Calls and outcomes
-/

section
variable (hplace : s.place = outermost m.calls m.ip)
include hplace

theorem course_deliver {o : Except Fault Value} (hm : m'.calls = m.calls) (hip : m'.ip = m.ip)
    (hpending : ∀ sn rest, pending ≠ .nested sn :: rest) :
    s.Course ⟨m', pending, .delivering o⟩ := by
  refine .within ?_ State.not_free_delivering
  rw [State.place_delivering fun sn rest h => absurd h (hpending sn rest), hm, hip, hplace]

theorem course_invoking {callee : Value} {args : List Value} (hm : m'.calls = m.calls)
    (hip : m'.ip = m.ip) : s.Course ⟨m', pending, .invoking callee args⟩ := by
  refine .within ?_ State.not_free_invoking
  rw [hplace, ← hm, ← hip]
  rfl

end

section
variable (hfloor : r.floor = none) (hs : Stands r st pending (.waiting q))
  (hplace : s.place = outermost q.calls q.ip)
include hfloor hs hplace

/-- Work that waits finds its place again. -/
theorem course_restored {o : Except Fault Value} (hbelow : q.calls.toList <+: m.calls.toList) :
    Advance.Course s (if m.covers q.snapshot then State.deliver (m.restore q.snapshot) pending o
      else .crashed Machine.restoreCrash m) := by
  split
  · refine .within ?_ State.not_free_delivering
    rw [State.place_delivering fun sn rest h => absurd h (hs.waiting_ne hfloor sn rest), hplace]
    show outermost (m.calls.shrink q.calls.size) q.ip = _
    rw [ shrink_of_prefix hbelow]
  · trivial

theorem course_handOver {info : NativeInfo} {action : World → Action} (hm : m.calls = q.calls)
    (hip : m.ip = q.ip) (hcalls : (action m.world).CallsOnly m.world.store) :
    Advance.Course s (State.handOver m pending info q.snapshot action) := by
  have hhere : s.place = outermost m.calls m.ip := by rw [hplace, hm, hip]
  unfold State.handOver
  dsimp only
  generalize action m.world = act at hcalls
  cases hcalls with
  | done => exact course_deliver hhere rfl rfl (hs.waiting_ne hfloor)
  | @fail _ f w =>
    show Advance.Course s (State.failNative { m with world := w } pending info q.snapshot f)
    rcases State.failNative_cases { m with world := w } pending info q.snapshot f with ⟨j, hj⟩ | hj
    · rw [hj]
      refine course_deliver hhere ?_ hip.symm (hs.waiting_ne hfloor)
      show m.calls.shrink q.calls.size = m.calls
      rw [hm]
      exact shrink_of_prefix (List.prefix_refl _)
    · rw [hj]
      trivial
  | crash => trivial
  | invoke => exact course_invoking hhere rfl rfl

end

theorem course_startNative {info : NativeInfo} {receiver : Option Value} {args : List Value}
    {mode : Mode} (hfloor : r.floor = none) (hs : Stands r st pending (.waiting m.posture))
    (hbacked : m.stack.Backed) (hcalls : m.library.CallsOnly)
    (hplace : State.place ⟨m, pending, mode⟩ = outermost m.calls m.ip) :
    Advance.Course ⟨m, pending, mode⟩ (State.startNative m pending info receiver args) := by
  have hrefuse : ∀ (f : Failure) (message : Text),
      Advance.Course ⟨m, pending, mode⟩ (State.refuse m pending f message) :=
    fun f message => course_deliver hplace rfl rfl (hs.waiting_ne hfloor)
  have henter : Advance.Course ⟨m, pending, mode⟩
      (State.enterNative m pending info (Exec.withReceiver receiver args)) := by
    unfold State.enterNative
    split
    · exact hrefuse _ _
    · dsimp only
      rw [Machine.snapshot_eq hbacked]
      exact course_handOver (m := { m with natives := m.natives.push info.name }) hfloor hs hplace
        rfl rfl (hcalls info _ m.world)
  unfold State.startNative
  dsimp only
  split
  · split
    · exact hrefuse _ _
    · exact henter
  · exact henter

section
variable (hfloor : r.floor = none) (hs : Stands r st pending (.waiting m.posture))
include hfloor hs

theorem course_startConversion {t : TypeInfo} {args : List Value} {callee : Value}
    {args' : List Value} :
    Advance.Course ⟨m, pending, .invoking callee args'⟩ (State.startConversion m pending t args) := by
  unfold State.startConversion
  split
  · rename_i v
    split
    · exact course_invoking rfl rfl rfl
    · have hworks := Exec.quiet_convert v t.name m
      unfold State.convertValue
      unfold Exec.Works at hworks
      cases hrun : Exec.effect (Native.convert v t.name) m with
      | ok a m' =>
        rw [hrun] at hworks
        exact course_deliver rfl hworks.1.calls hworks.1.ip (hs.waiting_ne hfloor)
      | error e m' =>
        rw [hrun] at hworks
        cases e with
        | crash message => trivial
        | fault f => exact course_deliver rfl hworks.calls hworks.ip (hs.waiting_ne hfloor)
  · exact course_deliver rfl rfl rfl (hs.waiting_ne hfloor)

theorem course_startConstruction {t : TypeInfo} {args : List Value} {callee : Value}
    {args' : List Value} :
    Advance.Course ⟨m, pending, .invoking callee args'⟩ (State.startConstruction m pending t args) := by
  have honStore : Exec.onStore (fun s => s.newInstance t) m =
      .ok (m.world.store.newInstance t).1 (m.withStore (m.world.store.newInstance t).2) := rfl
  unfold State.startConstruction
  rw [honStore]
  dsimp only
  split
  · exact course_invoking rfl rfl rfl
  · split
    · exact course_deliver rfl rfl rfl (hs.waiting_ne hfloor)
    · split
      · exact course_deliver rfl rfl rfl (hs.waiting_ne hfloor)
      · exact course_deliver rfl rfl rfl (hs.waiting_ne hfloor)

theorem course_startNested {cl : Closure} {args : List Value} {callee : Value} {args' : List Value}
    (hbacked : m.stack.Backed) :
    Advance.Course ⟨m, pending, .invoking callee args'⟩ (State.startNested m pending cl args) := by
  unfold State.startNested
  dsimp only
  rcases Exec.enterClosure_spec cl args true (m.natives.back?.getD Text.empty) m with ⟨hok, -⟩ | ⟨f, hf⟩
  · rw [hok]
    obtain ⟨j, hj⟩ := m.entered_eq cl args true (m.natives.back?.getD Text.empty)
    have hentered : (m.entered cl args true (m.natives.back?.getD Text.empty)).calls =
        m.calls.push ⟨m.ip, m.stack.height, true⟩ := by
      rw [hj]
    refine .within ?_ fun h => ?_
    · show outermost (m.entered cl args true (m.natives.back?.getD Text.empty)).calls _ = _
      rw [hentered, outermost_push]
      rfl
    · have hempty := h.2
      rw [hentered] at hempty
      exact Array.push_ne_empty hempty
  · rw [hf]
    rw [Machine.snapshot_eq hbacked]
    exact course_restored hfloor hs rfl (List.prefix_refl _)

theorem course_invoke {callee : Value} {args : List Value} (hbacked : m.stack.Backed)
    (hcalls : m.library.CallsOnly) :
    Advance.Course ⟨m, pending, .invoking callee args⟩ (State.invoke m pending callee args) := by
  cases callee with
  | closure c =>
    unfold State.invoke
    dsimp only
    split
    · exact course_startNested hfloor hs hbacked
    · trivial
  | native info => exact course_startNative hfloor hs hbacked hcalls rfl
  | bound info receiver => exact course_startNative hfloor hs hbacked hcalls rfl
  | type t =>
    unfold State.invoke
    dsimp only
    split
    · exact course_startConstruction hfloor hs
    · exact course_startConversion hfloor hs
  | _ => exact course_deliver rfl rfl rfl (hs.waiting_ne hfloor)

/-- An outcome arrives at work that finds its posture again. -/
theorem course_settled {o : Except Fault Value} :
    Advance.Course ⟨m, pending, .delivering o⟩ (State.handOut m pending o) := by
  have hplace : State.place ⟨m, pending, .delivering o⟩ = outermost m.calls m.ip :=
    State.place_delivering fun sn rest h => absurd h (hs.waiting_ne hfloor sn rest)
  generalize hq : m.posture = q at hs
  cases hs with
  | floor h =>
    rw [hfloor] at h
    cases h
  | @instruction rest g b inCall a _ i h hp =>
    have hcalls : m.calls = g.calls := by
      rw [← hp.calls, ← hq]
      rfl
    by_cases hfree : m.calls = #[]
    · obtain rfl := h.alone hfloor (hcalls.symm.trans hfree)
      cases o with
      | ok v =>
        refine .back ?_ State.not_free_delivering ⟨rfl, hfree⟩
        rw [hplace, hfree]
        rfl
      | error f =>
        refine .within ?_ State.not_free_delivering
        rw [hplace]
        rfl
    · cases o with
      | ok v =>
        refine .within ?_ fun h => hfree h.2
        rw [hplace]
        exact outermost_congr hfree _
      | error f =>
        refine .within ?_ State.not_free_delivering
        rw [hplace, State.place_delivering fun _ _ _ => hfree]
  | construct h => exact course_deliver hplace rfl rfl (h.waiting_ne hfloor)
  | convert h => exact course_deliver hplace rfl rfl (h.waiting_ne hfloor)
  | @native rest q info resume closures h hresume =>
    refine course_handOver hfloor h ?_ (congrArg Posture.calls hq) (congrArg Posture.ip hq)
      (hresume o m.world)
    rw [hplace, show m.calls = q.calls from congrArg Posture.calls hq,
      show m.ip = q.ip from congrArg Posture.ip hq]

end

/-- A failure leaves the nested run in which it arose. -/
theorem course_broken {f : Fault} (hs : Stands r st pending (.active g b inCall))
    (hfloor : r.floor = none) (hq : m.posture.On g) :
    Advance.Course ⟨m, pending, .delivering (.error f)⟩ (State.handOut m pending (.error f)) := by
  rcases hs.unwind fun _ => Regime.floor_ne hfloor _ with ⟨rfl, -⟩ | ⟨_, rest, rfl, -⟩
  · trivial
  · obtain ⟨q, hsn, hwaits, hbelow, houter⟩ := hs.outermost_nested hfloor
    have hcalls : m.calls = g.calls := hq.calls
    rw [hsn]
    refine course_restored hfloor hwaits ?_ (hcalls ▸ hbelow)
    show outermost m.calls q.ip = _
    rw [hcalls]
    exact houter q.ip

/-- The place of the program itself changes in no other way. -/
theorem InOrder.course (hr : r.Valid) (hfloor : r.floor = none) (h : InOrder r s) :
    Advance.Course s s.advance := by
  cases h with
  | running hm hs hq => exact course_execute hfloor hs hq.calls
  | invoking hm hs =>
    exact course_invoke hfloor hs hm.backed (hm.table ▸ hr.calls)
  | settled hm hs => exact course_settled hfloor hs
  | @returned m pending q v hm hs hq =>
    refine .within ?_ State.not_free_delivering
    rw [State.place_delivering fun sn rest h => absurd h (hs.waiting_ne hfloor sn rest)]
    rfl
  | ended => trivial
  | broken hm hs hq => exact course_broken hs hfloor hq

end
end ScriptEngine
