import ScriptEngine.Proofs.Machine.Instructions

/-!
# Transitions keep runs in order

Calls that the engine starts and outcomes that it hands over. A snapshot holds depths only; it is
enough because everything below these depths is still there when the snapshot is restored.
-/

namespace ScriptEngine

/-!
# Restoring
-/

theorem shrink_of_prefix {α : Type} {a b : Array α} (h : a.toList <+: b.toList) :
    b.shrink a.size = a := by
  apply Array.toList_inj.mp
  rw [Array.toList_shrink, ← Array.length_toList]
  exact (List.prefix_iff_eq_take.mp h).symm

/-- What a snapshot of one posture counts lies unchanged at the bottom of another. -/
structure Posture.Below (q p : Posture) : Prop where
  stack : q.stack <:+ p.stack
  captured : q.captured.toList <+: p.captured.toList
  calls : q.calls.toList <+: p.calls.toList
  natives : q.natives.toList <+: p.natives.toList

section
variable {r : Regime} {m : Machine} {pending : List Pending} {q : Posture}

theorem Posture.Below.refl (q : Posture) : q.Below q :=
  ⟨List.suffix_refl _, List.prefix_refl _, List.prefix_refl _, List.prefix_refl _⟩

theorem Posture.Below.covers (h : q.Below m.posture) (hbacked : m.stack.Backed) :
    m.covers q.snapshot = true := by
  have hstack : q.stack.length ≤ m.stack.height := by
    rw [← OperandStack.length_items hbacked]
    exact h.stack.length_le
  have hcaptured : q.captured.size ≤ m.captured.size := h.captured.length_le
  have hcalls : q.calls.size ≤ m.calls.size := h.calls.length_le
  unfold Machine.covers Posture.snapshot
  simp only [hstack, hcaptured, hcalls, decide_true, Bool.and_self]

/-- Depths are enough to find a posture again that lies below. -/
theorem Posture.Below.restore (h : q.Below m.posture) (hbacked : m.stack.Backed) :
    (m.restore q.snapshot).posture = q := by
  obtain ⟨l, hl⟩ := h.stack
  have hitems : (m.stack.cut q.stack.length).items = q.stack :=
    OperandStack.items_cut hbacked hl.symm
  show Posture.mk (m.stack.cut q.stack.length).items q.frame (m.captured.shrink q.captured.size)
    (m.calls.shrink q.calls.size) (m.natives.shrink q.natives.size) q.ip = q
  have hcaptured : m.captured.shrink q.captured.size = q.captured := shrink_of_prefix h.captured
  have hcalls : m.calls.shrink q.calls.size = q.calls := shrink_of_prefix h.calls
  have hnatives : m.natives.shrink q.natives.size = q.natives := shrink_of_prefix h.natives
  rw [hitems, hcaptured, hcalls, hnatives]

theorem Sane.restore (hm : Sane r m) (h : q.Below m.posture) : Sane r (m.restore q.snapshot) where
  backed := by
    refine OperandStack.backed_cut hm.backed ?_
    rw [← OperandStack.length_items hm.backed]
    exact h.stack.length_le
  runs := hm.runs
  decoded := hm.decoded
  table := hm.table
  entries := hm.entries
  clean := hm.clean
  bindings := hm.bindings

/-- A fault on its way to waiting work, whose posture is restored. -/
theorem inOrder_restored {f : Fault} (hm : Sane r m) (h : q.Below m.posture)
    (hs : Stands r m.world.store pending (.waiting q)) (hf : r.tidy → f.Known) :
    Advance.InOrder r (if m.covers q.snapshot then
        State.deliver (m.restore q.snapshot) pending (.error f)
      else .crashed Machine.restoreCrash m) := by
  rw [if_pos (h.covers hm.backed)]
  refine .settled (hm.restore h) ?_ hf
  rw [h.restore hm.backed]
  exact hs

/-!
# Natives
-/

theorem Sane.within (hm : Sane r m) {w : World} (hgrows : m.world.store.Grows w.store)
    (hclean : r.tidy → w.store.Neat r.strict r.known) (natives : Array Text) :
    Sane r { m with world := w, natives := natives } :=
  have h := hm.grows hgrows hclean
  ⟨h.backed, h.runs, h.decoded, h.table, h.entries, h.clean, h.bindings⟩

/-- The engine when a native is over that worked in this posture. -/
def Machine.outOfNative (m : Machine) : Machine :=
  { m with natives := m.natives.pop }

theorem Machine.posture_outOfNative {name : Text} (hq : m.posture = q.within name) :
    m.outOfNative.posture = q := by
  have hnatives : m.natives.pop = q.natives := by
    rw [show m.natives = q.natives.push name from congrArg Posture.natives hq]
    exact Array.pop_push
  show { m.posture with natives := m.natives.pop } = q
  rw [hq, hnatives]
  rfl

/-- A native that fails is over, and its fault is located. -/
theorem failNative_eq {info : NativeInfo} (hbacked : m.stack.Backed)
    (hq : m.posture = q.within info.name) (f : Fault) (pending : List Pending) :
    ∃ j, State.failNative m pending info q.snapshot f =
      State.deliver ((m.outOfNative.restore q.snapshot).withJournal j) pending
        (.error (State.nativeFault (m.outOfNative.restore q.snapshot) info f)) := by
  have hbelow : q.Below m.outOfNative.posture := by
    rw [Machine.posture_outOfNative hq]
    exact .refl q
  have htold := Machine.tell_eq (m.outOfNative.restore q.snapshot) .debug fun _ =>
    "native " ++ info.name ++ " failed: " ++
      (State.nativeFault (m.outOfNative.restore q.snapshot) info f).message
  cases f with
  | located => exact ⟨_, if_pos (hbelow.covers hbacked)⟩
  | raised =>
    obtain ⟨j, hj⟩ := htold
    refine ⟨j, ?_⟩
    rw [← hj]
    exact if_pos (hbelow.covers hbacked)
  | foreign =>
    obtain ⟨j, hj⟩ := htold
    refine ⟨j, ?_⟩
    rw [← hj]
    exact if_pos (hbelow.covers hbacked)

/-- A native that fails leaves the posture in which it was called. -/
theorem failNative_inOrder {info : NativeInfo} {f : Fault} (hm : Sane r m)
    (hq : m.posture = q.within info.name) (hs : Stands r m.world.store pending (.waiting q))
    (hf : r.tidy → f.Raisable) :
    Advance.InOrder r (State.failNative m pending info q.snapshot f) := by
  have hm' : Sane r m.outOfNative := hm.within (.refl _) hm.clean m.natives.pop
  have hbelow : q.Below m.outOfNative.posture := by
    rw [Machine.posture_outOfNative hq]
    exact .refl q
  obtain ⟨j, hj⟩ := failNative_eq hm.backed hq f pending
  rw [hj]
  refine .settled ((hm'.restore hbelow).withJournal j) ?_ fun ht => (hf ht).nativeFault _ _
  show Stands r m.world.store pending (.waiting (m.outOfNative.restore q.snapshot).posture)
  rw [hbelow.restore hm'.backed]
  exact hs

/-- A native at work ends, or asks for a call in the posture in which it works. -/
theorem handOver_inOrder {info : NativeInfo} {action : World → Action} (hm : Sane r m)
    (hq : m.posture = q.within info.name) (hs : Stands r m.world.store pending (.waiting q))
    (hcalls : (action m.world).CallsOnly m.world.store)
    (hproper : r.tidy → (action m.world).Tidy r.calm r.strict r.known) :
    Advance.InOrder r (State.handOver m pending info q.snapshot action) := by
  unfold State.handOver
  dsimp only
  generalize action m.world = act at hcalls hproper
  cases hcalls with
  | @done _ result w hgrows =>
    refine .settled (m := { m with world := w, natives := m.natives.pop })
      (hm.within hgrows (fun ht => ?_) _) ?_ fun ht => ?_
    · cases hproper ht with
      | done hw => exact hw
    · show Stands r w.store pending (.waiting m.outOfNative.posture)
      rw [Machine.posture_outOfNative hq]
      exact hs.extends hgrows.toExtends
    · cases hproper ht with
      | done _ hresult =>
        cases result with
        | none => trivial
        | some v => exact hresult v rfl
  | @fail _ f w hgrows =>
    refine failNative_inOrder (m := { m with world := w }) (hm.within hgrows (fun ht => ?_) m.natives)
      hq (hs.extends hgrows.toExtends) fun ht => ?_
    · cases hproper ht with
      | fail hw => exact hw
    · cases hproper ht with
      | fail _ hf => exact hf
  | crash =>
    intro ht
    cases hproper ht with
    | crash h => exact h
  | @invoke _ callee args w resume hgrows hresume =>
    refine .invoking (m := { m with world := w }) (hm.within hgrows (fun ht => ?_) m.natives) ?_
      (fun ht => ?_) fun v hv ht => ?_
    · cases hproper ht with
      | invoke hw => exact hw
    · show Stands r w.store (.native info q.snapshot resume :: pending) (.waiting m.posture)
      rw [hq]
      refine .native (hs.extends hgrows.toExtends) hresume (Nat.le_refl w.store.closures.size) ?_
      intro ht
      cases hproper ht with
      | invoke _ _ _ hresume => exact hresume
    · cases hproper ht with
      | invoke _ hcallee => exact hcallee
    · cases hproper ht with
      | invoke _ _ hargs => exact hargs v hv

/-!
# Starting calls
-/

theorem inOrder_refuse {f : Failure} {message : Text} (hm : Sane r m)
    (hs : Stands r m.world.store pending (.waiting m.posture)) (hf : f.Known) :
    Advance.InOrder r (State.refuse m pending f message) :=
  .settled hm hs fun _ => hf

theorem startNative_inOrder {info : NativeInfo} {receiver : Option Value} {args : List Value}
    (hr : r.Valid) (hm : Sane r m) (hs : Stands r m.world.store pending (.waiting m.posture))
    (hinfo : r.tidy → r.known info)
    (hargs : ∀ v ∈ Exec.withReceiver receiver args, Exec.Good r.tidy r.known v m.world.store) :
    Advance.InOrder r (State.startNative m pending info receiver args) := by
  have henter : (∀ k, info.arity = some k → (Exec.withReceiver receiver args).length = k) →
      Advance.InOrder r
        (State.enterNative m pending info (Exec.withReceiver receiver args)) := by
    intro harity
    unfold State.enterNative
    split
    · exact inOrder_refuse hm hs (by simp [Failure.Known])
    · have hcalls := hr.calls info (Exec.withReceiver receiver args) m.world
      have hproper : r.tidy → Action.Tidy r.calm r.strict r.known _ := fun ht =>
        hr.proper ht info _ m.world (hinfo ht) harity (hm.clean ht) fun v hv => hargs v hv ht
      rw [← hm.table] at hcalls hproper
      dsimp only
      rw [Machine.snapshot_eq hm.backed]
      exact handOver_inOrder (m := { m with natives := m.natives.push info.name })
        (hm.within (.refl _) hm.clean _) rfl hs hcalls hproper
  unfold State.startNative
  dsimp only
  split
  · rename_i k hk
    split
    · exact inOrder_refuse hm hs (by simp [Failure.Known])
    · rename_i hlen
      refine henter fun k' hk' => ?_
      rw [hk] at hk'
      cases hk'
      simpa using hlen
  · rename_i hnone
    refine henter fun k hk => ?_
    rw [hnone] at hk
    cases hk

/-- Work that runs under an empty name among the natives. -/
theorem manage_inOrder {work : Pending} {callee : Value} {args : List Value} (hm : Sane r m)
    (hs : Stands r m.world.store (work :: pending) (.waiting (m.posture.within Text.empty)))
    (hcallee : Exec.Good r.tidy r.known callee m.world.store)
    (hargs : ∀ v ∈ args, Exec.Good r.tidy r.known v m.world.store) :
    Advance.InOrder r (State.manage m pending work callee args) :=
  .invoking (hm.within (.refl _) hm.clean _) hs hcallee hargs

theorem startConversion_inOrder {t : TypeInfo} {args : List Value} (hm : Sane r m)
    (hs : Stands r m.world.store pending (.waiting m.posture))
    (hargs : ∀ v ∈ args, Exec.Good r.tidy r.known v m.world.store) :
    Advance.InOrder r (State.startConversion m pending t args) := by
  unfold State.startConversion
  split
  · rename_i v
    have hv := hargs v List.mem_cons_self
    split
    · rename_i method hmethod
      exact manage_inOrder hm (.convert hs) (Exec.good_resolve hm.clean hm.bindings hmethod) hargs
    · have hkeeps := Exec.keeps_convert hm.clean hv t.name
      unfold Exec.Keeps at hkeeps
      unfold State.convertValue
      cases hrun : Exec.effect (Native.convert v t.name) m with
      | ok w m' =>
        rw [hrun] at hkeeps
        obtain ⟨s, rfl, hgrows, hclean, hw⟩ := hkeeps
        exact .settled (hm.grows hgrows hclean) (hs.extends hgrows.toExtends) hw
      | error e m' =>
        rw [hrun] at hkeeps
        cases e with
        | fault f =>
          obtain ⟨s, rfl, hgrows, hclean⟩ := hkeeps
          exact .settled (hm.grows hgrows fun ht => (hclean ht).1) (hs.extends hgrows.toExtends)
            fun ht => (hclean ht).2
        | crash message => exact fun ht => absurd ht hkeeps
  · exact inOrder_refuse hm hs (by simp [Failure.Known])

theorem startConstruction_inOrder {t : TypeInfo} {args : List Value} (hm : Sane r m)
    (hs : Stands r m.world.store pending (.waiting m.posture))
    (hargs : ∀ v ∈ args, Exec.Good r.tidy r.known v m.world.store) :
    Advance.InOrder r (State.startConstruction m pending t args) := by
  have hgrows : m.world.store.Grows (m.world.store.newInstance t).2 := .of_same rfl rfl
  have hm' := hm.grows hgrows fun ht => (hm.clean ht).newInstance t
  have hs' := hs.extends hgrows.toExtends
  have hargs' : ∀ v ∈ args, Exec.Good r.tidy r.known v (m.world.store.newInstance t).2 :=
    fun v hv ht => (hargs v hv ht).grows hgrows
  have hnew : Exec.onStore (fun s => s.newInstance t) m =
      .ok (m.world.store.newInstance t).1 (m.withStore (m.world.store.newInstance t).2) := rfl
  unfold State.startConstruction
  rw [hnew]
  dsimp only
  split
  · rename_i constructor hconstructor
    refine manage_inOrder hm' (.construct hs')
      (Exec.good_resolve hm'.clean hm'.bindings hconstructor) ?_
    intro v hv
    rcases List.mem_cons.mp hv with rfl | hv
    · exact fun _ => trivial
    · exact hargs' v hv
  · split
    · exact .settled hm' hs' fun _ => trivial
    · split
      · have hpairs : ∀ p ∈ t.fields.zip args,
            Exec.Good r.tidy r.known p.2 (m.world.store.newInstance t).2 :=
          fun p hp => hargs' p.2 (List.of_mem_zip hp).2
        have hkeeps := Exec.keeps_fill (i := (m.world.store.newInstance t).1) hm'.clean hpairs
        obtain ⟨s, hsame, hgrows₁, hclean₁, -⟩ := hkeeps
        obtain ⟨rfl⟩ := congrArg (fun m => m.world.store) hsame
        exact .settled (hm'.grows hgrows₁ hclean₁) (hs'.extends hgrows₁.toExtends) fun _ => trivial
      · exact inOrder_refuse hm' hs' (by simp [Failure.Known])

theorem startNested_inOrder {c : ClosureId} {cl : Closure} {args : List Value} (hm : Sane r m)
    (hs : Stands r m.world.store pending (.waiting m.posture))
    (hcl : m.world.store.closure? c = some cl)
    (hargs : ∀ v ∈ args, Exec.Good r.tidy r.known v m.world.store) :
    Advance.InOrder r (State.startNested m pending cl args) := by
  unfold State.startNested
  dsimp only
  rw [Exec.enterClosure_eq, Machine.snapshot_eq hm.backed]
  have hkeeps := Exec.keeps_checkCall hm.clean cl args
  unfold Exec.Keeps at hkeeps
  cases hrun : Exec.checkCall cl args m with
  | ok u m' =>
    rw [hrun] at hkeeps
    obtain ⟨s, rfl, -, -, rfl⟩ := hkeeps
    rw [Exec.bind_of_ok hrun]
    refine entered_inOrder hm hcl hargs ?_
    intro s b hextends hback
    exact .nested (hs.extends hextends) hback
  | error e m' =>
    rw [hrun] at hkeeps
    rw [Exec.bind_of_error hrun]
    cases e with
    | fault f =>
      obtain ⟨s, rfl, hgrows, hclean⟩ := hkeeps
      exact inOrder_restored (hm.grows hgrows fun ht => (hclean ht).1) (.refl _)
        (hs.extends hgrows.toExtends) fun ht => (hclean ht).2
    | crash message => exact fun ht => absurd ht hkeeps

theorem invoke_inOrder {callee : Value} {args : List Value} (hr : r.Valid) (hm : Sane r m)
    (hs : Stands r m.world.store pending (.waiting m.posture))
    (hcallee : Exec.Good r.tidy r.known callee m.world.store)
    (hargs : ∀ v ∈ args, Exec.Good r.tidy r.known v m.world.store) :
    Advance.InOrder r (State.invoke m pending callee args) := by
  cases callee with
  | closure c =>
    unfold State.invoke
    dsimp only
    cases hcl : m.world.store.closure? c with
    | some cl => exact startNested_inOrder hm hs hcl hargs
    | none =>
      intro ht
      have hlt : c < m.world.store.closures.size := hcallee ht
      rw [Store.closure?, Array.getElem?_eq_getElem hlt] at hcl
      cases hcl
  | native info => exact startNative_inOrder hr hm hs hcallee hargs
  | bound info receiver =>
    refine startNative_inOrder hr hm hs (fun ht => (hcallee ht).1) ?_
    intro v hv
    rcases List.mem_cons.mp hv with rfl | hv
    · exact fun ht => (hcallee ht).2
    · exact hargs v hv
  | type t =>
    unfold State.invoke
    dsimp only
    split
    · exact startConstruction_inOrder hm hs hargs
    · exact startConversion_inOrder hm hs hargs
  | _ => exact inOrder_refuse hm hs (by simp [Failure.Known])

/-!
# Handing over outcomes
-/

/-- Work under an empty name is over. -/
theorem inOrder_managed {o : Except Fault Value} (hm : Sane r m)
    (hq : m.posture = q.within Text.empty) (hs : Stands r m.world.store pending (.waiting q))
    (ho : r.tidy → m.world.store.AdmitsOutcome r.known o) :
    Advance.InOrder r (State.deliver m.outOfNative pending o) := by
  refine .settled (hm.within (.refl _) hm.clean _) ?_ ho
  rw [Machine.posture_outOfNative hq]
  exact hs

theorem handOut_settled {o : Except Fault Value} (hm : Sane r m)
    (hs : Stands r m.world.store pending (.waiting m.posture))
    (ho : r.tidy → m.world.store.AdmitsOutcome r.known o)
    (hfloor : ∀ footing, r.floor ≠ some (pending, footing)) :
    Advance.InOrder r (State.handOut m pending o) := by
  generalize hq : m.posture = q at hs
  cases hs with
  | floor h => exact absurd h (hfloor _)
  | @instruction rest g b inCall a _ i h hp hip hi hty =>
    rw [← hq] at hp
    have hip : m.ip = i := by
      rw [← hip, ← hq]
      rfl
    cases o with
    | ok v =>
      have hv : Slot.Holds r.tidy r.known m.world.store .value v := ho
      refine inOrder_at (i := i + 1) (m := m.withStack (m.stack.push v))
        (hm.withStack (OperandStack.backed_push hm.backed v)) h (hp.push .value hm.backed hv) hi hty ?_
      rw [hip]
      rfl
    | error f => exact .broken hm h hp.on fun ht => Fault.Known.locate (ho ht) m
  | construct h =>
    refine inOrder_managed hm hq h fun ht => ?_
    cases o with
    | ok v => trivial
    | error f => exact ho ht
  | convert h => exact inOrder_managed hm hq h ho
  | @native rest q info resume closures h hresume hclosures hproper =>
    exact handOver_inOrder hm hq h (hresume o m.world) fun ht =>
      hproper ht o m.world hclosures (hm.clean ht) (ho ht)

/-- A failed activation unwinds to the work that waits for it, or the program is over. -/
theorem handOut_broken {g : Ground} {b : FrameId} {inCall : Bool} {f : Fault} (hm : Sane r m)
    (hs : Stands r m.world.store pending (.active g b inCall)) (hq : m.posture.On g)
    (hf : r.tidy → f.Known) (hstay : ∀ footing, r.floor ≠ some (pending, footing)) :
    Advance.InOrder r (State.handOut m pending (.error f)) := by
  rcases hs.unwind hstay with ⟨rfl, hfloor⟩ | ⟨q, rest, rfl, hwaits, hstack, hcaptured, hcalls, hnatives⟩
  · exact ⟨hfloor, (fun v hv => nomatch hv), hm, hf⟩
  · refine inOrder_restored hm ?_ hwaits hf
    refine ⟨hstack.trans hq.stack, ?_, ?_, ?_⟩
    · rw [hq.captured]
      exact hcaptured
    · rw [hq.calls]
      exact hcalls
    · exact (hq.natives.trans hnatives) ▸ List.prefix_refl _

/-- The next transition leaves the part of a run that is watched: it hands an outcome to the floor, or
the activation that is the floor returns or runs past the end of the program. -/
def Regime.Leaves (r : Regime) (s : State) : Prop :=
  (∃ o footing, s.mode = .delivering o ∧ r.floor = some (s.pending, footing)) ∨
    ∃ g b inCall, r.floor = some (s.pending, .active g b inCall) ∧ s.mode = .running ∧
      s.machine.calls.size ≤ g.calls.size ∧
      ∀ op, s.machine.ops[s.machine.ip.toNat]? = some op → op = .ret

theorem Regime.not_leaves (hfloor : r.floor = none) (s : State) : ¬ r.Leaves s := by
  rintro (⟨o, footing, -, h⟩ | ⟨g, b, inCall, h, -⟩)
  · exact Regime.floor_ne hfloor _ h
  · exact Regime.floor_ne hfloor _ h

/-- Above work that waits only an outcome for that work leaves. -/
theorem Regime.not_leaves_waiting {floor : List Pending} {q : Posture} {s : State}
    (hfloor : r.floor = some (floor, .waiting q))
    (hopen : ∀ o, s.mode = .delivering o → s.pending ≠ floor) : ¬ r.Leaves s := by
  rintro (⟨o, footing, hmode, h⟩ | ⟨g, b, inCall, h, -⟩)
  · rw [hfloor] at h
    cases h
    exact hopen o hmode rfl
  · rw [hfloor] at h
    cases h

/-- One transition keeps a run in order as far as it is watched. -/
theorem advance_inOrder {s : State} (hr : r.Valid) (h : InOrder r s) (hstay : ¬ r.Leaves s) :
    Advance.InOrder r s.advance := by
  cases h with
  | @running m pending g b inCall i hm hs hq hip hi =>
    refine execute_inOrder hr hm hs hq hip hi fun hret hfloor => hstay (Or.inr ?_)
    refine ⟨g, b, inCall, hfloor, rfl, Nat.le_of_eq (congrArg Array.size hq.calls), ?_⟩
    show ∀ op, m.ops[m.ip.toNat]? = some op → op = .ret
    rw [hip, Int.toNat_natCast, hm.decoded]
    exact hret
  | invoking hm hs hcallee hargs => exact invoke_inOrder hr hm hs hcallee hargs
  | settled hm hs ho => exact handOut_settled hm hs ho fun footing h => hstay (Or.inl ⟨_, footing, rfl, h⟩)
  | @returned m pending q v hm hs hq hv =>
    refine .settled (hm.moved q.ip) ?_ hv
    show Stands r m.world.store pending (.waiting { m.posture with ip := q.ip })
    rw [hq]
    exact hs
  | ended hm hnone _ hstack hv => exact ⟨hnone, fun _ _ => hstack, hm, hv⟩
  | broken hm hs hq hf =>
    exact handOut_broken hm hs hq hf fun footing h => hstay (Or.inl ⟨_, footing, rfl, h⟩)

end
end ScriptEngine
