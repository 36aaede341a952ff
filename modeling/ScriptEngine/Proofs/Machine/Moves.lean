import ScriptEngine.Proofs.Machine.Discipline
import ScriptEngine.Proofs.Machine.Work

/-!
# Moves between functions and scopes

The other instructions: those that call, return, open or close a scope, or build a closure. For each
of them, everything that it can do, whatever the program and the operands.
-/

namespace ScriptEngine
namespace Exec

variable {α : Type} {m : Machine}

/-- What a call can do. Arguments are checked before anything is entered, and a closure is never handed
to the engine but entered. -/
inductive Calling (m : Machine) : EStateM.Result Stop Machine Next → Prop
  | stopped {e : Stop} {m' : Machine} (h : m.Works (fun _ => False) m') : Calling m (.error e m')
  | handed {callee : Value} {args : List Value} {m' : Machine} (h : m.Works (fun _ => False) m')
    (hcallee : ∀ c, callee ≠ .closure c) : Calling m (.ok (.call callee args) m')
  | entered {m' : Machine} {c : ClosureId} {cl : Closure} {args : List Value}
    (h : m.Works (fun _ => False) m') (hcl : m'.world.store.closure? c = some cl)
    (hdepth : m'.calls.size < m'.options.maxDepth) :
    Calling m (.ok .stay (m'.entered cl args false Text.empty))

theorem Quiet.calling {x : Exec α} {k : α → Exec Next} (hx : Quiet x)
    (hk : ∀ a m', Calling m' (k a m')) : Calling m ((x >>= k) m) := by
  have hm := hx m
  unfold Works at hm
  cases hrun : x m with
  | ok a m' =>
    rw [hrun] at hm
    rw [bind_of_ok hrun]
    have hnext := hk a m'
    generalize k a m' = r at hnext
    cases hnext with
    | stopped h => exact .stopped (hm.1.trans h)
    | handed h hcallee => exact .handed (hm.1.trans h) hcallee
    | entered h hcl hdepth => exact .entered (hm.1.trans h) hcl hdepth
  | error e m' =>
    rw [hrun] at hm
    rw [bind_of_error hrun]
    exact .stopped hm

/-- The checks before a call change nothing, and a call that passes them is not too deep. -/
theorem checkCall_spec (c : Closure) (args : List Value) (m : Machine) :
    (checkCall c args m = .ok () m ∧ m.calls.size < m.options.maxDepth) ∨
      ∃ f, checkCall c args m = .error (.fault f) m := by
  have hguards : ∀ (params : List Parameter) (args : List Value),
      checkGuards (Store.closureName c) params args m = .ok () m ∨
        ∃ f, checkGuards (Store.closureName c) params args m = .error (.fault f) m := by
    intro params
    induction params with
    | nil => exact fun _ => Or.inl rfl
    | cons p params ih =>
      intro args
      cases args with
      | nil => exact Or.inl rfl
      | cons v args =>
        unfold checkGuards
        cases p.guard with
        | some g =>
          dsimp only
          rw [bind_of_ok (show typeName v m = .ok (m.world.store.typeName v) m from rfl)]
          split
          · exact ih args
          · exact Or.inr ⟨_, rfl⟩
        | none => exact ih args
  unfold checkCall
  dsimp only
  split
  · exact Or.inr ⟨_, rfl⟩
  · rcases hguards c.params (withReceiver c.receiver args) with hok | ⟨f, hf⟩
    · rw [bind_of_ok hok]
      show ((if m.options.maxDepth ≤ m.calls.size then (_ : Exec Unit) else (_ : Exec Unit)) m = _ ∧
        _) ∨ ∃ f, (if m.options.maxDepth ≤ m.calls.size then (_ : Exec Unit) else (_ : Exec Unit)) m = _
      split
      · exact Or.inr ⟨_, rfl⟩
      · rename_i hdepth
        exact Or.inl ⟨rfl, Nat.lt_of_not_le hdepth⟩
    · rw [bind_of_error hf]
      exact Or.inr ⟨f, rfl⟩

/-- A closure is entered, or refused with everything as it was. -/
theorem enterClosure_spec (c : Closure) (args : List Value) (reentry : Bool) (native : Text)
    (m : Machine) :
    (enterClosure c args reentry native m = .ok () (m.entered c args reentry native) ∧
      m.calls.size < m.options.maxDepth) ∨
      ∃ f, enterClosure c args reentry native m = .error (.fault f) m := by
  rw [enterClosure_eq]
  rcases checkCall_spec c args m with ⟨hok, hdepth⟩ | ⟨f, hf⟩
  · rw [bind_of_ok hok]
    exact Or.inl ⟨rfl, hdepth⟩
  · rw [bind_of_error hf]
    exact Or.inr ⟨f, rfl⟩

theorem calling_callValue (callee : Value) (args : List Value) (m : Machine) :
    Calling m (callValue callee args m) := by
  have hrefuse : ∀ v : Value, Calling m
      ((typeName v >>= fun t => raise .notCallable (t ++ " is not callable")) m) :=
    fun _ => .stopped (.refl m)
  cases callee with
  | closure c =>
    unfold callValue
    dsimp only
    rw [bind_of_ok (show reads (fun m => m.world.store.closure? c) m =
      .ok (m.world.store.closure? c) m from rfl)]
    cases hcl : m.world.store.closure? c with
    | none => exact .stopped (.refl m)
    | some cl =>
      show Calling m ((enterClosure cl args false Text.empty >>= fun _ => pure .stay) m)
      rcases enterClosure_spec cl args false Text.empty m with ⟨hok, hdepth⟩ | ⟨f, hf⟩
      · rw [bind_of_ok hok]
        exact .entered (.refl m) hcl hdepth
      · rw [bind_of_error hf]
        exact .stopped (.refl m)
  | native | bound | type => exact .handed (.refl m) fun _ h => by cases h
  | _ => exact hrefuse _

theorem calling_call (m : Machine) : Calling m (step .call m) :=
  quiet_pop.calling fun callee _ => quiet_popArgs.calling fun args m' =>
    calling_callValue callee args m'

theorem calling_dispatch (op : Text) (m : Machine) : Calling m (step (.dispatch op) m) := by
  refine quiet_popArgs.calling fun args m' => ?_
  cases args with
  | nil => exact .stopped (.refl m')
  | cons first rest =>
    refine Quiet.calling (x := operator op first) (quiet_reads _) fun callee m' => ?_
    cases callee with
    | some callee => exact calling_callValue callee (first :: rest) m'
    | none =>
      refine (quiet_typeName first).calling fun t m' => ?_
      split
      · exact .stopped (.refl m')
      · exact .stopped (.refl m')

end Exec

/-!
# Returns
-/

/-- The engine when a call is over: its record and its boundary are gone, and the stack is as high
as it was at the call. -/
def Machine.back (m : Machine) (record : CallRecord) (caller : Option FrameId) (j : Journal) :
    Machine :=
  { m.withJournal j with
    calls := m.calls.pop
    frame := caller
    captured := m.captured.pop
    stack := m.stack.cut record.depth }

namespace Exec

/-- What a return can do: end the run, end a nested run, or go on behind the call. -/
inductive Returning (m : Machine) : EStateM.Result Stop Machine Next → Prop
  | crashed {message : Text} {m' : Machine} : Returning m (.error (.crash message) m')
  | ended {v : Value} {m' : Machine} (h : m.Works (fun _ => False) m') (hcalls : m'.calls.back? = none) :
    Returning m (.ok (.done v) m')
  | done {v : Value} {m' : Machine} {record : CallRecord} {b : FrameId} {fr : Frame} {j : Journal}
    (h : m.Works (fun _ => False) m') (hcalls : m'.calls.back? = some record)
    (hreentry : record.reentry = true) (hb : m'.world.store.boundary m'.frame = some b)
    (hfr : m'.world.store.frame? b = some fr) :
    Returning m (.ok (.done v) (m'.back record fr.caller j))
  | onward {v : Value} {m' : Machine} {record : CallRecord} {b : FrameId} {fr : Frame} {j : Journal}
    (h : m.Works (fun _ => False) m') (hcalls : m'.calls.back? = some record)
    (hreentry : record.reentry = false) (hb : m'.world.store.boundary m'.frame = some b)
    (hfr : m'.world.store.frame? b = some fr) :
    Returning m (.ok .next { (m'.back record fr.caller j).withStack
      ((m'.back record fr.caller j).stack.push v) with ip := record.callIp })

theorem returning_giveBack (v : Value) {m m' : Machine} (h : m.Works (fun _ => False) m') :
    Returning m (giveBack v m') := by
  cases hcalls : m'.calls.back? with
  | none =>
    unfold giveBack
    rw [bind_of_ok (show reads (fun m => m.calls.back?) m' = .ok m'.calls.back? m' from rfl), hcalls]
    exact .ended h hcalls
  | some record =>
    cases hboundary : (m'.world.store.boundary m'.frame).bind fun b => m'.world.store.frame? b with
    | none =>
      unfold giveBack
      rw [bind_of_ok (show reads (fun m => m.calls.back?) m' = .ok m'.calls.back? m' from rfl),
        hcalls]
      dsimp only
      rw [bind_of_ok (show reads (fun m => (m.world.store.boundary m.frame).bind
        fun b => m.world.store.frame? b) m' = .ok none m' by rw [← hboundary]; rfl)]
      exact .crashed
    | some fr =>
      obtain ⟨b, hb, hfr⟩ := Option.bind_eq_some_iff.mp hboundary
      obtain ⟨j, hj⟩ := giveBack_eq hcalls hb hfr v
      rw [hj]
      dsimp only
      split
      · rename_i hreentry
        exact .done h hcalls hreentry hb hfr
      · rename_i hreentry
        exact .onward h hcalls (Bool.eq_false_iff.mpr hreentry) hb hfr

theorem returning_ret (m : Machine) : Returning m (step .ret m) := by
  show Returning m ((pop >>= giveBack) m)
  have hm := quiet_pop m
  unfold Works at hm
  cases hrun : pop m with
  | ok v m' =>
    rw [hrun] at hm
    rw [bind_of_ok hrun]
    exact returning_giveBack v hm.1
  | error e m' =>
    rw [bind_of_error hrun]
    cases e with
    | crash => exact .crashed
    | fault f =>
      unfold pop at hrun
      split at hrun <;> cases hrun

/-!
# Scopes and closures
-/

theorem step_scopeEnter (m : Machine) :
    step .scopeEnter m = .ok .next
      { m.withStore (m.world.store.newBlock m.frame).2 with
        frame := some (m.world.store.newBlock m.frame).1 } := rfl

/-- What the end of a scope can do. -/
inductive Closing (m : Machine) : EStateM.Result Stop Machine Next → Prop
  | crashed {message : Text} {m' : Machine} : Closing m (.error (.crash message) m')
  | left {f : FrameId} {fr : Frame} (hf : m.frame = some f) (hfr : m.world.store.frame? f = some fr)
    (hkind : fr.isBoundary = false) : Closing m (.ok .next { m with frame := fr.outer })

theorem closing_scopeExit (m : Machine) : Closing m (step .scopeExit m) := by
  show Closing m ((reads (fun m => m.frame.bind fun f => m.world.store.frame? f) >>= _) m)
  cases hfound : m.frame.bind fun f => m.world.store.frame? f with
  | none =>
    rw [bind_of_ok (show reads (fun m => m.frame.bind fun f => m.world.store.frame? f) m = .ok none m
      by rw [← hfound]; rfl)]
    exact .crashed
  | some fr =>
    obtain ⟨f, hf, hfr⟩ := Option.bind_eq_some_iff.mp hfound
    rw [bind_of_ok (show reads (fun m => m.frame.bind fun f => m.world.store.frame? f) m =
      .ok (some fr) m by rw [← hfound]; rfl)]
    dsimp only
    split
    · exact .crashed
    · rename_i hkind
      exact .left hf hfr (Bool.eq_false_iff.mpr hkind)

/-- What the instruction that builds a closure can do. -/
inductive Building (m : Machine) (d : Int) : EStateM.Result Stop Machine Next → Prop
  | stopped {e : Stop} {m' : Machine} (h : m.Works (fun _ => False) m') : Building m d (.error e m')
  | built {m' : Machine} {params : List Parameter} (h : m.Works (fun _ => False) m') :
    Building m d (.ok (.skip d)
      ((m'.withStore (m'.world.store.newClosure ⟨m.ip + 1, m.frame, params, Text.empty, none⟩).2).withStack
        (m'.stack.push (.closure m'.world.store.closures.size))))

theorem building_buildFunc (d : Int) (m : Machine) : Building m d (step (.buildFunc d) m) := by
  have hquiet : Quiet (popCount >>= fun n => checkCount n >>= fun n => popParams n []) :=
    quiet_popCount.bind fun n => (quiet_checkCount n).bind fun n => quiet_popParams n []
  have hsplit : step (.buildFunc d) m =
      ((popCount >>= fun n => checkCount n >>= fun n => popParams n []) >>= fun params =>
        reads (·.ip) >>= fun ip => reads (·.frame) >>= fun frame =>
          onStore (fun s => (Value.closure s.closures.size,
            (s.newClosure ⟨ip + 1, frame, params, Text.empty, none⟩).2)) >>= fun v =>
              push v >>= fun _ => pure (.skip d)) m := by
    show (buildClosure >>= fun v => push v >>= fun _ => pure (Next.skip d)) m = _
    unfold buildClosure
    simp only [bind_assoc]
    rfl
  rw [hsplit]
  have hm := hquiet m
  unfold Works at hm
  cases hrun : (popCount >>= fun n => checkCount n >>= fun n => popParams n []) m with
  | ok params m' =>
    rw [hrun] at hm
    rw [bind_of_ok hrun]
    have hbuilt := @Building.built m d m' params hm.1
    rw [← hm.1.ip, ← hm.1.frame] at hbuilt
    exact hbuilt
  | error e m' =>
    rw [hrun] at hm
    rw [bind_of_error hrun]
    exact .stopped hm

end Exec
end ScriptEngine
