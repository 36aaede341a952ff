import ScriptEngine.Proofs.Machine.Coordination
import ScriptEngine.Proofs.Machine.Guises

/-!
# Two runs side by side

Of two runs that begin with one call, made by an instruction in the first one and on behalf of
waiting work in the second one, the engines differ in the mark on the record of that call and in
what only traces show. Every transition keeps that, up to where the call returns or fails.
-/

namespace ScriptEngine

/-- The records, the one at position `k` as that of a call by an instruction. -/
def directAt (k : Nat) (c : Array CallRecord) : Array CallRecord :=
  c.modify k fun r => { r with reentry := false }

section
variable {k : Nat}

theorem size_directAt (c : Array CallRecord) : (directAt k c).size = c.size :=
  Array.size_modify

theorem directAt_push {c : Array CallRecord} (h : k < c.size) (record : CallRecord) :
    directAt k (c.push record) = (directAt k c).push record := by
  refine Array.ext_getElem? fun i => ?_
  unfold directAt
  rw [Array.getElem?_modify, Array.getElem?_push, Array.getElem?_push, Array.size_modify,
    Array.getElem?_modify]
  by_cases hi : i = c.size
  · have hk : k ≠ i := by omega
    rw [if_neg hk, if_pos hi, if_pos hi]
  · rw [if_neg hi, if_neg hi]

theorem directAt_pop (c : Array CallRecord) : directAt k c.pop = (directAt k c).pop := by
  refine Array.ext_getElem? fun i => ?_
  unfold directAt
  rw [Array.getElem?_modify, Array.getElem?_pop, Array.getElem?_pop, Array.size_modify,
    Array.getElem?_modify]
  by_cases hi : i < c.size - 1
  · rw [if_pos hi, if_pos hi]
  · rw [if_neg hi, if_neg hi]
    split <;> rfl

theorem directAt_of_le {c : Array CallRecord} (h : c.size ≤ k) : directAt k c = c := by
  refine Array.ext_getElem? fun i => ?_
  unfold directAt
  rw [Array.getElem?_modify]
  by_cases hi : k = i
  · rw [if_pos hi, Array.getElem?_eq_none (by omega)]
    rfl
  · rw [if_neg hi]

theorem directAt_shrink (c : Array CallRecord) (n : Nat) :
    directAt k (c.shrink n) = (directAt k c).shrink n := by
  refine Array.ext_getElem? fun i => ?_
  unfold directAt
  rw [Array.getElem?_modify, Array.shrink_eq_take, Array.shrink_eq_take, Array.take_eq_extract,
    Array.take_eq_extract, Array.getElem?_extract, Array.getElem?_extract, Array.size_modify,
    Array.getElem?_modify, Nat.zero_add]
  by_cases hi : i < min n c.size - 0
  · rw [if_pos hi, if_pos hi]
  · rw [if_neg hi, if_neg hi]
    split <;> rfl

theorem directAt_back {c : Array CallRecord} (h : c.size ≠ k + 1) :
    (directAt k c).back? = c.back? := by
  unfold directAt
  rw [Array.back?_eq_getElem?, Array.back?_eq_getElem?, Array.size_modify, Array.getElem?_modify]
  by_cases hk : k = c.size - 1
  · have hsize : c.size = 0 := by omega
    rw [if_pos hk, Array.getElem?_eq_none (by omega)]
    rfl
  · rw [if_neg hk]

end

/-- The first engine is the second one with the call at position `k`, which is in progress, made by
an instruction, apart from what only traces show. -/
structure Machine.Twin (k : Nat) (a b : Machine) : Prop where
  same : a.view id = b.view (directAt k)
  deep : k < b.calls.size

namespace Machine.Twin

variable {k : Nat} {a b : Machine}

/-- What the view shows is the same. -/
theorem shows {α : Type} (h : a.Twin k b) {f : Machine → α}
    (hf : ∀ (g : Array CallRecord → Array CallRecord), (∀ c, (g c).size = c.size) →
      ∀ m : Machine, f (m.view g) = f m) : f a = f b := by
  rw [← hf id (fun _ => rfl) a, ← hf (directAt k) size_directAt b]
  exact congrArg f h.same

/-- A change to something else. -/
theorem map (h : a.Twin k b) {f : Machine → Machine} (hf : ∀ g m, f (Machine.view g m) = (f m).view g)
    (hcalls : (f b).calls = b.calls) : (f a).Twin k (f b) where
  same := (hf id a).symm.trans ((congrArg f h.same).trans (hf (directAt k) b))
  deep := by
    rw [hcalls]
    exact h.deep

theorem world (h : a.Twin k b) : a.world.untraced = b.world.untraced :=
  congrArg Machine.world h.same

theorem calls (h : a.Twin k b) : a.calls = directAt k b.calls :=
  congrArg Machine.calls h.same

theorem library (h : a.Twin k b) : a.library = b.library :=
  h.shows fun _ _ _ => rfl

theorem program (h : a.Twin k b) : a.program = b.program :=
  h.shows fun _ _ _ => rfl

theorem ip (h : a.Twin k b) : a.ip = b.ip :=
  h.shows fun _ _ _ => rfl

theorem natives (h : a.Twin k b) : a.natives = b.natives :=
  h.shows fun _ _ _ => rfl

theorem snapshot (h : a.Twin k b) : a.snapshot = b.snapshot := by
  refine h.shows fun g hg m => ?_
  unfold Machine.snapshot
  rw [show (m.view g).calls.size = m.calls.size from hg m.calls]
  rfl

theorem covers (h : a.Twin k b) (sn : Snapshot) : a.covers sn = b.covers sn := by
  refine h.shows (f := (·.covers sn)) fun g hg m => ?_
  unfold Machine.covers
  rw [show (m.view g).calls.size = m.calls.size from hg m.calls]
  rfl

theorem resolve (h : a.Twin k b) (name : Text) : a.resolve name = b.resolve name :=
  h.shows (f := (·.resolve name)) fun g _ m => (Machine.view_labels g).resolve m name

theorem typeName (h : a.Twin k b) (v : Value) :
    a.world.store.typeName v = b.world.store.typeName v :=
  h.shows (f := fun m => m.world.store.typeName v) fun _ _ _ => by cases v <;> rfl

theorem problemAt (h : a.Twin k b) (ip : Int) (f : Failure) (message : Text) :
    a.problemAt ip f message = b.problemAt ip f message :=
  h.shows (f := fun m => m.problemAt ip f message) fun _ _ _ => rfl

theorem withWorld (h : a.Twin k b) {w w' : World} (hw : w.untraced = w'.untraced) :
    ({ a with world := w } : Machine).Twin k { b with world := w' } := by
  refine ⟨?_, h.deep⟩
  show ({ a.view id with world := w.untraced } : Machine) =
    { b.view (directAt k) with world := w'.untraced }
  rw [h.same, hw]

theorem restore (h : a.Twin k b) {sn : Snapshot} (hsn : k < sn.calls) :
    (a.restore sn).Twin k (b.restore sn) := by
  have hview : ∀ g : Array CallRecord → Array CallRecord, (∀ c n, g (c.shrink n) = (g c).shrink n) →
      ∀ m : Machine, (m.restore sn).view g = (m.view g).restore sn := by
    intro g hg m
    unfold Machine.view Machine.restore
    dsimp only
    rw [hg]
  refine ⟨(hview id (fun _ _ => rfl) a).trans
    ((congrArg (·.restore sn) h.same).trans (hview _ directAt_shrink b).symm), ?_⟩
  show k < (b.calls.shrink sn.calls).size
  rw [Array.size_shrink]
  exact Nat.lt_min.mpr ⟨hsn, h.deep⟩

theorem tell (h : a.Twin k b) (level : Level) {text : Machine → Text}
    (htext : ∀ g m, text (Machine.view g m) = text m) :
    (a.tell level text).Twin k (b.tell level text) := by
  refine h.map (f := (·.tell level text)) (fun g m => Exec.tell_view level (htext g m)) ?_
  obtain ⟨j, hj⟩ := b.tell_eq level text
  rw [hj]
  rfl

theorem entered (h : a.Twin k b) (cl : Closure) (args : List Value)
    (reentry : Bool) (native native' : Text) :
    (a.entered cl args reentry native).Twin k (b.entered cl args reentry native') := by
  have ha : (a.entered cl args reentry native).view id = _ :=
    Exec.entered_view (f := id) (fun _ => rfl) rfl cl args native
  have hb : (b.entered cl args reentry native').view (directAt k) = _ :=
    Exec.entered_view size_directAt (directAt_push h.deep _) cl args native'
  refine ⟨ha.trans ((congrArg (fun m => m.entered cl args reentry Text.empty) h.same).trans
    hb.symm), ?_⟩
  obtain ⟨j, hj⟩ := b.entered_eq cl args reentry native'
  rw [hj]
  show k < (b.calls.push _).size
  rw [Array.size_push]
  exact Nat.lt_succ_of_lt h.deep

end Machine.Twin

namespace Exec

variable {α : Type} {k : Nat} {a b m : Machine}

/-- The results are the same, in twin engines unless they are crashes. -/
inductive Twins (k : Nat) : EStateM.Result Stop Machine α → EStateM.Result Stop Machine α → Prop
  | ok {x : α} {a b : Machine} (h : a.Twin k b) : Twins k (.ok x a) (.ok x b)
  | fault {f : Fault} {a b : Machine} (h : a.Twin k b) :
    Twins k (.error (.fault f) a) (.error (.fault f) b)
  | crash {message : Text} {a b : Machine} :
    Twins k (.error (.crash message) a) (.error (.crash message) b)

/-- More than `k` calls are in progress behind the computation, unless it crashes. -/
def Deep (k : Nat) : EStateM.Result Stop Machine α → Prop
  | .ok _ m => k < m.calls.size
  | .error (.fault _) m => k < m.calls.size
  | .error (.crash _) _ => True

theorem BlindAt.twins {x : Exec α} (h : a.Twin k b) (ha : BlindAt (Machine.view id) x a)
    (hb : BlindAt (Machine.view (directAt k)) x b) (hdeep : Deep k (x b)) : Twins k (x a) (x b) := by
  have heq : viewed (Machine.view id) (x a) = viewed (Machine.view (directAt k)) (x b) :=
    ha.symm.trans ((congrArg x h.same).trans hb)
  generalize x a = r at heq
  generalize x b = r' at heq hdeep
  cases r with
  | ok u a' =>
    cases r' with
    | ok v b' =>
      injection heq with huv hab
      subst huv
      exact .ok ⟨hab, hdeep⟩
    | error e b' => cases heq
  | error e a' =>
    cases r' with
    | ok v b' => cases heq
    | error e' b' =>
      injection heq with he hab
      subst he
      cases e with
      | fault f => exact .fault ⟨hab, hdeep⟩
      | crash message => exact .crash

theorem Works.deep {own : FrameId → Prop} {x : Exec α} {P : α → Prop} (h : Works own x m P)
    (hm : k < m.calls.size) : Deep k (x m) := by
  unfold Works at h
  cases hrun : x m with
  | ok v m' =>
    rw [hrun] at h
    show k < m'.calls.size
    rw [h.1.calls]
    exact hm
  | error e m' =>
    rw [hrun] at h
    cases e with
    | crash => trivial
    | fault f =>
      show k < m'.calls.size
      rw [h.calls]
      exact hm

/-- Work on values does the same in twin engines. -/
theorem Quiet.twins {x : Exec α} (hquiet : Quiet x) (hx : ∀ g, Blind (Machine.view g) x) (h : a.Twin k b) :
    Twins k (x a) (x b) :=
  BlindAt.twins h (hx id a) (hx (directAt k) b) ((hquiet b).deep h.deep)

theorem Calling.deep {r : EStateM.Result Stop Machine Next} (h : Calling m r)
    (hm : k < m.calls.size) : Deep k r := by
  cases h with
  | @stopped e m' h =>
    cases e with
    | crash => trivial
    | fault f =>
      show k < m'.calls.size
      rw [h.calls]
      exact hm
  | @handed callee args m' h =>
    show k < m'.calls.size
    rw [h.calls]
    exact hm
  | @entered m' c cl args h =>
    obtain ⟨j, hj⟩ := m'.entered_eq cl args false Text.empty
    rw [hj]
    show k < (m'.calls.push _).size
    rw [h.calls, Array.size_push]
    exact Nat.lt_succ_of_lt hm

theorem deep_step {op : Op} (hm : k < m.calls.size) (hret : op = .ret → m.calls.size ≠ k + 1) :
    Deep k (step op m) := by
  have hlocal : op.Local → Deep k (step op m) := fun h => (works_step h m).deep hm
  cases op with
  | call => exact (calling_call m).deep hm
  | dispatch op => exact (calling_dispatch op m).deep hm
  | ret =>
    have hsize : ∀ {m' : Machine}, m.Works (fun _ => False) m' → k < m'.calls.pop.size := by
      intro m' h
      have hne := hret rfl
      rw [h.calls, Array.size_pop]
      omega
    have hstep := returning_ret m
    generalize step .ret m = r at hstep
    cases hstep with
    | crashed => trivial
    | @ended v m' h hcalls =>
      show k < m'.calls.size
      rw [h.calls]
      exact hm
    | done h => exact hsize h
    | onward h => exact hsize h
  | scopeEnter => exact hm
  | scopeExit =>
    have hstep := closing_scopeExit m
    generalize step .scopeExit m = r at hstep
    cases hstep with
    | crashed => trivial
    | left => exact hm
  | buildFunc d =>
    have hstep := building_buildFunc d m
    generalize step (.buildFunc d) m = r at hstep
    cases hstep with
    | @stopped e m' h =>
      cases e with
      | crash => trivial
      | fault f =>
        show k < m'.calls.size
        rw [h.calls]
        exact hm
    | @built m' params h =>
      show k < m'.calls.size
      rw [h.calls]
      exact hm
  | _ => exact hlocal trivial

/-- Instructions do the same in twin engines, unless they return from the call itself. -/
theorem twins_step (h : a.Twin k b) {op : Op} (hret : op = .ret → b.calls.size ≠ k + 1) :
    Twins k (step op a) (step op b) := by
  have hdeep := deep_step h.deep hret
  by_cases hop : op = .ret
  · subst hop
    exact BlindAt.twins h (blindAt_ret (fun _ => rfl) rfl)
      (blindAt_ret directAt_pop (directAt_back (hret rfl))) hdeep
  · exact BlindAt.twins h (blindAt_step (fun _ => rfl) (fun _ => rfl) hop)
      (blindAt_step size_directAt (directAt_push h.deep) hop) hdeep

theorem unwind_cases (height : Nat) (m : Machine) :
    (∃ m', unwind height m = .error (.crash absent) m') ∨
      ∃ m', unwind height m = .ok () m' ∧ m'.calls = m.calls.pop := by
  unfold unwind
  rw [bind_of_ok (m := m) (x := reads fun m => (m.world.store.boundary m.frame).bind
    fun b => m.world.store.frame? b) rfl]
  dsimp only
  cases (m.world.store.boundary m.frame).bind fun b => m.world.store.frame? b with
  | none => exact Or.inl ⟨_, rfl⟩
  | some fr =>
    obtain ⟨j, hj⟩ := Machine.tell_eq { m with calls := m.calls.pop } .debug
      fun _ => "return from " ++ fr.name
    refine Or.inr ⟨_, rfl, ?_⟩
    dsimp only
    rw [hj]
    rfl

/-- Taking the call itself off leaves engines that differ only in what traces show. -/
theorem twins_unwind (h : a.Twin k b) (hsize : b.calls.size = k + 1) (height : Nat) :
    (∃ a' b', unwind height a = .error (.crash absent) a' ∧
      unwind height b = .error (.crash absent) b') ∨
    ∃ a' b', unwind height a = .ok () a' ∧ unwind height b = .ok () b' ∧
      a'.view id = b'.view id ∧ b'.calls.size = k := by
  have ha : BlindAt (Machine.view id) (unwind height) a := blind_unwind (g := id) (fun _ => rfl) height a
  have hb : BlindAt (Machine.view (directAt k)) (unwind height) b := blind_unwind directAt_pop height b
  have hview : viewed (Machine.view id) (unwind height a) = viewed (Machine.view (directAt k)) (unwind height b) :=
    ha.symm.trans ((congrArg (unwind height) h.same).trans hb)
  rcases unwind_cases height a with ⟨a', ha'⟩ | ⟨a', ha', -⟩
  · rcases unwind_cases height b with ⟨b', hb'⟩ | ⟨b', hb', -⟩
    · exact Or.inl ⟨a', b', ha', hb'⟩
    · rw [ha', hb'] at hview
      cases hview
  · rcases unwind_cases height b with ⟨b', hb'⟩ | ⟨b', hb', hcalls⟩
    · rw [ha', hb'] at hview
      cases hview
    · rw [ha', hb'] at hview
      injection hview with _ hview
      have hsize' : b'.calls.size = k := by
        rw [hcalls, Array.size_pop]
        omega
      refine Or.inr ⟨a', b', ha', hb', hview.trans ?_, hsize'⟩
      unfold Machine.view
      rw [directAt_of_le (Nat.le_of_eq hsize')]
      rfl

theorem pop_cases (m : Machine) :
    (∃ m', pop m = .error (.crash underflow) m') ∨ ∃ v m', pop m = .ok v m' ∧ m'.calls = m.calls := by
  unfold pop
  split
  · exact Or.inr ⟨_, _, rfl, rfl⟩
  · exact Or.inl ⟨_, rfl⟩

/-- Where the call itself returns, the value is pushed and the caller goes on, or the value is handed
to the work that waits. -/
theorem twins_return {record : CallRecord} (h : a.Twin k b) (hsize : b.calls.size = k + 1)
    (hback : b.calls.back? = some record) (hreentry : record.reentry = true) :
    (∃ (message : Text) (a' b' : Machine), step .ret a = .error (.crash message) a' ∧
      step .ret b = .error (.crash message) b') ∨
    ∃ (v : Value) (a' b' : Machine),
      step .ret a = .ok .next { a' with stack := a'.stack.push v, ip := record.callIp } ∧
      step .ret b = .ok (.done v) b' ∧ a'.view id = b'.view id ∧ b'.calls.size = k := by
  have hpop := quiet_pop.twins (fun _ => blind_pop) h
  show (∃ (message : Text) (a' b' : Machine), (pop >>= giveBack) a = _ ∧ (pop >>= giveBack) b = _) ∨
    ∃ (v : Value) (a' b' : Machine), (pop >>= giveBack) a = _ ∧ (pop >>= giveBack) b = _ ∧ _ ∧ _
  rcases pop_cases b with ⟨b₁, hb⟩ | ⟨v, b₁, hb, hcalls⟩
  · rw [hb] at hpop
    generalize ha : pop a = r at hpop
    cases hpop
    exact Or.inl ⟨_, _, _, bind_of_error ha, bind_of_error hb⟩
  · rw [hb] at hpop
    generalize ha : pop a = r at hpop
    obtain ⟨h₁⟩ := hpop
    rename_i a₁
    have hbackB : b₁.calls.back? = some record := hcalls ▸ hback
    have hbackA : a₁.calls.back? = some { record with reentry := false } := by
      rw [Array.back?_eq_getElem?] at hbackB
      rw [h₁.calls, Array.back?_eq_getElem?, size_directAt]
      unfold directAt
      rw [Array.getElem?_modify, if_pos (by rw [hcalls]; omega), hbackB]
      rfl
    rw [bind_of_ok ha, bind_of_ok hb, giveBack_eq_unwind hbackA, giveBack_eq_unwind hbackB]
    rcases twins_unwind h₁ (hcalls ▸ hsize) record.depth with
      ⟨a', b', ha', hb'⟩ | ⟨a', b', ha', hb', hview, hsize'⟩
    · exact Or.inl ⟨_, _, _, bind_of_error ha', bind_of_error hb'⟩
    · refine Or.inr ⟨v, a', b', bind_of_ok ha', ?_, hview, hsize'⟩
      rw [bind_of_ok hb']
      unfold handBack
      rw [if_pos hreentry]
      rfl

end Exec

/-!
# States
-/

/-- The same work waits, natives with what they do next, since the call at position `k` began. -/
inductive Pending.Alike (k : Nat) : Pending → Pending → Prop
  | nested {sn : Snapshot} (hsn : k < sn.calls) : Alike k (.nested sn) (.nested sn)
  | native {info : NativeInfo} {sn : Snapshot} {resume resume' : Except Fault Value → World → Action}
    (hsn : k < sn.calls)
    (h : ∀ o o' w w', untracedOutcome o = untracedOutcome o' → w.untraced = w'.untraced →
      (resume o w).Alike (resume' o' w')) : Alike k (.native info sn resume) (.native info sn resume')
  | construct {i : InstanceId} : Alike k (.construct i) (.construct i)
  | convert : Alike k .convert .convert
  | instruction : Alike k .instruction .instruction

/-- The same work waits on top of `P` and on top of `Q`. -/
inductive Pending.Beside (k : Nat) (P Q : List Pending) : List Pending → List Pending → Prop
  | floor : Beside k P Q P Q
  | cons {x y : Pending} {l l' : List Pending} (h : x.Alike k y) (hl : Beside k P Q l l') :
    Beside k P Q (x :: l) (y :: l')

inductive Mode.Alike : Mode → Mode → Prop
  | running : Alike .running .running
  | invoking {callee : Value} {args : List Value} :
    Alike (.invoking callee args) (.invoking callee args)
  | delivering {o o' : Except Fault Value} (h : untracedOutcome o = untracedOutcome o') :
    Alike (.delivering o) (.delivering o')

/-- Twin engines do the same on behalf of the same work. -/
structure State.Twin (k : Nat) (P Q : List Pending) (s t : State) : Prop where
  machine : s.machine.Twin k t.machine
  pending : Pending.Beside k P Q s.pending t.pending
  mode : s.mode.Alike t.mode

/-- The transitions lead to such states again, or to the same crash. -/
def Advance.Twin (k : Nat) (P Q : List Pending) : Advance → Advance → Prop
  | .next s, .next t => s.Twin k P Q t
  | .crashed message _, .crashed message' _ => message = message'
  | _, _ => False

section
variable {k : Nat} {P Q l l' : List Pending} {a b : Machine}

theorem twin_deliver (h : a.Twin k b) (hl : Pending.Beside k P Q l l') {o o' : Except Fault Value}
    (ho : untracedOutcome o = untracedOutcome o') :
    Advance.Twin k P Q (State.deliver a l o) (State.deliver b l' o') :=
  ⟨h, hl, .delivering ho⟩

theorem twin_refuse (h : a.Twin k b) (hl : Pending.Beside k P Q l l') (f : Failure) (message : Text) :
    Advance.Twin k P Q (State.refuse a l f message) (State.refuse b l' f message) :=
  twin_deliver h hl rfl

/-- A fault is located at the same instruction. -/
theorem Machine.Twin.locate (h : a.Twin k b) (f : Fault) :
    (a.locate f).untraced = (b.locate f).untraced := by
  have hproblem := h.problemAt a.ip f.failure f.message
  rw [h.ip] at hproblem
  cases f with
  | located => rfl
  | raised failure message =>
    unfold Machine.locate Fault.untraced
    dsimp only
    rw [h.ip, hproblem]
  | foreign message =>
    unfold Machine.locate Fault.untraced
    dsimp only
    rw [h.ip, hproblem]

theorem untracedOutcome_error {f f' : Fault} (h : f.untraced = f'.untraced) :
    untracedOutcome (.error f) = untracedOutcome (.error f') :=
  congrArg Except.error h

theorem twin_proceed (h : a.Twin k b) (hl : Pending.Beside k P Q l l') (n : Exec.Next) :
    Advance.Twin k P Q (State.proceed l n a) (State.proceed l' n b) := by
  cases n with
  | next =>
    exact ⟨h.map (f := fun m => { m with ip := m.ip + 1 }) (fun _ _ => rfl) rfl, hl, .running⟩
  | skip d =>
    exact ⟨h.map (f := fun m => { m with ip := Number.wrapWord (m.ip + 1 + d) }) (fun _ _ => rfl) rfl, hl,
      .running⟩
  | stay => exact ⟨h, hl, .running⟩
  | call callee args => exact ⟨h, .cons .instruction hl, .invoking⟩
  | done v => exact twin_deliver h hl rfl

theorem twin_after {r r' : EStateM.Result Stop Machine Exec.Next} (h : Exec.Twins k r r')
    (hl : Pending.Beside k P Q l l') : Advance.Twin k P Q (State.after l r) (State.after l' r') := by
  cases h with
  | ok h => exact twin_proceed h hl _
  | crash => rfl
  | @fault f _ _ h => exact twin_deliver h hl (untracedOutcome_error (h.locate f))

/-- Twin engines execute the same instruction, if they execute any, and the journal may be told about
it. -/
theorem twin_execute_cases (h : a.Twin k b) (hl : Pending.Beside k P Q l l') :
    Advance.Twin k P Q (State.execute a l) (State.execute b l') ∨
      ∃ op a' b', b.ops[b.ip.toNat]? = some op ∧ a'.Twin k b' ∧ b'.calls = b.calls ∧
        State.execute a l = State.after l (Exec.step op a') ∧
        State.execute b l' = State.after l' (Exec.step op b') := by
  have hempty : a.calls.isEmpty = b.calls.isEmpty := by
    show decide (a.calls.size = 0) = decide (b.calls.size = 0)
    rw [h.calls, size_directAt]
  have htrace : a.options.trace = b.options.trace :=
    h.shows (f := fun m => m.options.trace) fun _ _ _ => rfl
  unfold State.execute
  rw [h.program, hempty, h.ip]
  split
  · exact Or.inl rfl
  split
  · split
    · exact Or.inl (twin_deliver h hl rfl)
    · exact Or.inl (twin_refuse h hl _ _)
  split
  · exact Or.inl rfl
  rw [htrace]
  obtain ⟨a', b', ha', hb', htold, hcalls, hops, hip⟩ : ∃ a' b' : Machine,
      (if b.options.trace then a.tell .debug State.traceLine else a) = a' ∧
      (if b.options.trace then b.tell .debug State.traceLine else b) = b' ∧ a'.Twin k b' ∧
      b'.calls = b.calls ∧ b'.ops = b.ops ∧ b'.ip = b.ip := by
    refine ⟨_, _, rfl, rfl, ?_⟩
    split
    · obtain ⟨j, hj⟩ := b.tell_eq .debug State.traceLine
      refine ⟨h.tell .debug fun _ _ => rfl, ?_⟩
      rw [hj]
      exact ⟨rfl, rfl, rfl⟩
    · exact ⟨h, rfl, rfl, rfl⟩
  dsimp only
  rw [ha', hb', show a'.ops[a'.ip.toNat]? = b'.ops[b'.ip.toNat]? from
    htold.shows (f := fun m => m.ops[m.ip.toNat]?) fun _ _ _ => rfl, hops, hip]
  cases b.ops[b.ip.toNat]? with
  | none => exact Or.inl rfl
  | some op => exact Or.inr ⟨op, a', b', rfl, htold, hcalls, rfl, rfl⟩

theorem twin_execute (h : a.Twin k b) (hl : Pending.Beside k P Q l l')
    (hret : b.ops[b.ip.toNat]? = some .ret → b.calls.size ≠ k + 1) :
    Advance.Twin k P Q (State.execute a l) (State.execute b l') := by
  rcases twin_execute_cases h hl with hcrash | ⟨op, a', b', hop, h', hcalls, ha, hb⟩
  · exact hcrash
  · rw [ha, hb]
    refine twin_after (Exec.twins_step h' ?_) hl
    rintro rfl
    rw [hcalls]
    exact hret hop

/-- Where the call itself returns: the caller goes on behind it in the first run, the value is handed
to the work that waits in the second one. -/
theorem twin_execute_return {record : CallRecord} (h : a.Twin k b) (hl : Pending.Beside k P Q l l')
    (hop : b.ops[b.ip.toNat]? = some .ret) (hsize : b.calls.size = k + 1)
    (hback : b.calls.back? = some record) (hreentry : record.reentry = true) :
    Advance.Twin k P Q (State.execute a l) (State.execute b l') ∨
      ∃ (v : Value) (a' b' : Machine), a'.view id = b'.view id ∧ b'.calls.size = k ∧
        State.execute a l =
          .next ⟨{ a' with stack := a'.stack.push v, ip := record.callIp + 1 }, l, .running⟩ ∧
        State.execute b l' = .next ⟨b', l', .delivering (.ok v)⟩ := by
  rcases twin_execute_cases h hl with hcrash | ⟨op, a₁, b₁, hop₁, h₁, hcalls, ha, hb⟩
  · exact Or.inl hcrash
  · obtain rfl : Op.ret = op := Option.some.inj (hop.symm.trans hop₁)
    rw [ha, hb]
    rcases Exec.twins_return h₁ (hcalls ▸ hsize) (hcalls ▸ hback) hreentry with
      ⟨message, a', b', ha', hb'⟩ | ⟨v, a', b', ha', hb', hview, hsize'⟩
    · rw [ha', hb']
      exact Or.inl rfl
    · rw [ha', hb']
      exact Or.inr ⟨v, a', b', hview, hsize', rfl, rfl⟩

/-!
# Natives
-/

theorem Machine.Twin.nativeFault (h : a.Twin k b) (info : NativeInfo) {f f' : Fault}
    (hf : f.untraced = f'.untraced) :
    (State.nativeFault a info f).untraced = (State.nativeFault b info f').untraced := by
  have hproblem : ∀ failure message, a.problemAt a.ip failure message =
      b.problemAt b.ip failure message := by
    intro failure message
    rw [h.ip]
    exact h.problemAt b.ip failure message
  obtain rfl | ⟨failure, message, problems, trace, trace', rfl, rfl⟩ := Fault.untraced_cases hf
  · cases f with
    | located | raised | foreign =>
      unfold State.nativeFault Fault.untraced
      dsimp only
      rw [hproblem]
  · unfold State.nativeFault Fault.untraced
    dsimp only
    rw [hproblem]

theorem twin_failNative (h : a.Twin k b) (hl : Pending.Beside k P Q l l') (info : NativeInfo)
    {sn : Snapshot} (hsn : k < sn.calls) {f f' : Fault} (hf : f.untraced = f'.untraced) :
    Advance.Twin k P Q (State.failNative a l info sn f) (State.failNative b l' info sn f') := by
  have hout : a.outOfNative.Twin k b.outOfNative := h.map (f := Machine.outOfNative) (fun _ _ => rfl) rfl
  have hback := hout.restore hsn
  have hfault := hback.nativeFault info hf
  have hmessage : (State.nativeFault (a.outOfNative.restore sn) info f).message =
      (State.nativeFault (b.outOfNative.restore sn) info f').message := by
    rw [← Fault.message_untraced, hfault, Fault.message_untraced]
  have htold : ∀ {message message' : Text}, message = message' →
      ((a.outOfNative.restore sn).tell .debug fun _ =>
        "native " ++ info.name ++ " failed: " ++ message).Twin k
      ((b.outOfNative.restore sn).tell .debug fun _ =>
        "native " ++ info.name ++ " failed: " ++ message') := by
    rintro message _ rfl
    exact hback.tell .debug fun _ _ => rfl
  unfold State.failNative
  dsimp only
  rw [show ({ a with natives := a.natives.pop } : Machine).covers sn =
    ({ b with natives := b.natives.pop } : Machine).covers sn from hout.covers sn]
  split
  · obtain rfl | ⟨failure, message, problems, trace, trace', rfl, rfl⟩ := Fault.untraced_cases hf
    · cases f with
      | located => exact twin_deliver hback hl (untracedOutcome_error hfault)
      | raised => exact twin_deliver (htold hmessage) hl (untracedOutcome_error hfault)
      | foreign => exact twin_deliver (htold hmessage) hl (untracedOutcome_error hfault)
    · exact twin_deliver hback hl (untracedOutcome_error hfault)
  · rfl

theorem twin_handOver (h : a.Twin k b) (hl : Pending.Beside k P Q l l') (info : NativeInfo)
    {sn : Snapshot} (hsn : k < sn.calls) {action action' : World → Action}
    (hact : (action a.world).Alike (action' b.world)) :
    Advance.Twin k P Q (State.handOver a l info sn action) (State.handOver b l' info sn action') := by
  unfold State.handOver
  dsimp only
  generalize action a.world = act at hact
  generalize action' b.world = act' at hact
  cases hact with
  | @done r w w' hw =>
    exact twin_deliver ((h.withWorld hw).map (f := Machine.outOfNative) (fun _ _ => rfl) rfl) hl rfl
  | @fail f f' w w' hf hw => exact twin_failNative (h.withWorld hw) hl info hsn hf
  | crash => rfl
  | invoke hw hresume => exact ⟨h.withWorld hw, .cons (.native hsn hresume) hl, .invoking⟩

theorem twin_startNative (hnatives : b.library.Oblivious) (h : a.Twin k b)
    (hl : Pending.Beside k P Q l l') (info : NativeInfo) (receiver : Option Value)
    (args : List Value) :
    Advance.Twin k P Q (State.startNative a l info receiver args)
      (State.startNative b l' info receiver args) := by
  have henter : ∀ all, Advance.Twin k P Q (State.enterNative a l info all)
      (State.enterNative b l' info all) := by
    intro all
    have hact : (a.library.behaviour info all a.world).Alike (b.library.behaviour info all b.world) := by
      rw [h.library]
      exact hnatives info all _ _ h.world
    unfold State.enterNative
    rw [show a.natives.size = b.natives.size from congrArg Array.size h.natives]
    split
    · exact twin_refuse h hl _ _
    · dsimp only
      rw [h.snapshot]
      exact twin_handOver (h.map (f := fun m => { m with natives := m.natives.push info.name })
        (fun _ _ => rfl) rfl) hl info h.deep hact
  unfold State.startNative
  dsimp only
  split
  · split
    · exact twin_refuse h hl _ _
    · exact henter _
  · exact henter _

/-!
# Starting calls
-/

theorem twin_manage (h : a.Twin k b) (hl : Pending.Beside k P Q l l') {work : Pending}
    (hwork : work.Alike k work) (callee : Value) (args : List Value) :
    Advance.Twin k P Q (State.manage a l work callee args) (State.manage b l' work callee args) :=
  ⟨h.map (f := fun m => { m with natives := m.natives.push Text.empty }) (fun _ _ => rfl) rfl,
    .cons hwork hl, .invoking⟩

theorem twin_startConversion (h : a.Twin k b) (hl : Pending.Beside k P Q l l') (t : TypeInfo)
    (args : List Value) :
    Advance.Twin k P Q (State.startConversion a l t args) (State.startConversion b l' t args) := by
  unfold State.startConversion
  split
  · rename_i v
    rw [h.typeName, h.resolve]
    split
    · exact twin_manage h hl .convert _ _
    · have hresult : Exec.Twins k (Exec.effect (Native.convert v t.name) a)
          (Exec.effect (Native.convert v t.name) b) :=
        (Exec.quiet_convert v t.name).twins (fun g => Exec.blind_convert (Machine.view_labels g) v t.name) h
      unfold State.convertValue
      generalize Exec.effect (Native.convert v t.name) a = r at hresult
      generalize Exec.effect (Native.convert v t.name) b = r' at hresult
      cases hresult with
      | ok h => exact twin_deliver h hl rfl
      | fault h => exact twin_deliver h hl rfl
      | crash => rfl
  · exact twin_refuse h hl _ _

theorem fill_untraced (s : Store) (i : InstanceId) (pairs : List (Text × Value)) :
    State.startConstruction.fill s.untraced i pairs =
      (State.startConstruction.fill s i pairs).untraced := by
  induction pairs generalizing s with
  | nil => rfl
  | cons p rest ih => exact ih (s.setField i p.1 p.2)

theorem twin_startConstruction (h : a.Twin k b) (hl : Pending.Beside k P Q l l') (t : TypeInfo)
    (args : List Value) :
    Advance.Twin k P Q (State.startConstruction a l t args) (State.startConstruction b l' t args) := by
  have hnew : Exec.Twins k (Exec.onStore (fun s => s.newInstance t) a)
      (Exec.onStore (fun s => s.newInstance t) b) :=
    (Exec.quiet_onStore (fun _ => .of_same rfl rfl) fun _ => rfl).twins
      (fun g => Exec.blind_onStore (Machine.view_labels g) fun _ => rfl) h
  unfold State.startConstruction
  generalize Exec.onStore (fun s => s.newInstance t) a = r at hnew
  generalize Exec.onStore (fun s => s.newInstance t) b = r' at hnew
  cases hnew with
  | fault | crash => rfl
  | @ok i a b h =>
    dsimp only
    rw [h.resolve]
    split
    · exact twin_manage h hl .construct _ _
    · split
      · exact twin_deliver h hl rfl
      split
      · have hfill : Exec.Twins k
            (Exec.onStore (fun s => ((), State.startConstruction.fill s i (t.fields.zip args))) a)
            (Exec.onStore (fun s => ((), State.startConstruction.fill s i (t.fields.zip args))) b) :=
          (Exec.quiet_onStore (fun s => .of_same (State.fill_same s i _).1 (State.fill_same s i _).2)
            fun s => (State.fill_same s i _).1).twins
              (fun g => Exec.blind_onStore (Machine.view_labels g) fun s => congrArg _ (fill_untraced s i _)) h
        generalize Exec.onStore (fun s => ((), State.startConstruction.fill s i (t.fields.zip args))) a
          = r at hfill
        generalize Exec.onStore (fun s => ((), State.startConstruction.fill s i (t.fields.zip args))) b
          = r' at hfill
        cases hfill with
        | ok h => exact twin_deliver h hl rfl
        | fault | crash => rfl
      · exact twin_refuse h hl _ _

/-- A fault for waiting work, whose depths are restored. -/
theorem twin_restored (h : a.Twin k b) (hl : Pending.Beside k P Q l l') {sn : Snapshot}
    (hsn : k < sn.calls) {f f' : Fault} (hf : f.untraced = f'.untraced) :
    Advance.Twin k P Q
      (if a.covers sn then State.deliver (a.restore sn) l (.error f)
        else .crashed Machine.restoreCrash a)
      (if b.covers sn then State.deliver (b.restore sn) l' (.error f')
        else .crashed Machine.restoreCrash b) := by
  rw [h.covers]
  split
  · exact twin_deliver (h.restore hsn) hl (untracedOutcome_error hf)
  · rfl

theorem twin_startNested (h : a.Twin k b) (hl : Pending.Beside k P Q l l') (cl : Closure)
    (args : List Value) :
    Advance.Twin k P Q (State.startNested a l cl args) (State.startNested b l' cl args) := by
  have ha : Exec.BlindAt (Machine.view id) (Exec.checkCall cl args) a :=
    Exec.blind_checkCall (Machine.view_labels id) (fun _ => rfl) (fun _ => rfl) cl args a
  have hb : Exec.BlindAt (Machine.view (directAt k)) (Exec.checkCall cl args) b :=
    Exec.blind_checkCall (Machine.view_labels (directAt k)) (fun _ => rfl) (fun m => size_directAt m.calls)
      cl args b
  have hcheck : Exec.viewed (Machine.view id) (Exec.checkCall cl args a) =
      Exec.viewed (Machine.view (directAt k)) (Exec.checkCall cl args b) :=
    ha.symm.trans ((congrArg (Exec.checkCall cl args) h.same).trans hb)
  have hentered := h.entered cl args true (a.natives.back?.getD Text.empty)
    (b.natives.back?.getD Text.empty)
  unfold State.startNested
  dsimp only
  rw [Exec.enterClosure_eq, Exec.enterClosure_eq, h.snapshot]
  rcases Exec.checkCall_spec cl args a with ⟨hok, -⟩ | ⟨f, hf⟩
  · rcases Exec.checkCall_spec cl args b with ⟨hok', -⟩ | ⟨f', hf'⟩
    · rw [Exec.bind_of_ok hok, Exec.bind_of_ok hok']
      exact ⟨hentered, .cons (.nested h.deep) hl, .running⟩
    · rw [hok, hf'] at hcheck
      cases hcheck
  · rcases Exec.checkCall_spec cl args b with ⟨hok', -⟩ | ⟨f', hf'⟩
    · rw [hf, hok'] at hcheck
      cases hcheck
    · rw [hf, hf'] at hcheck
      injection hcheck with hfault
      cases hfault
      rw [Exec.bind_of_error hf, Exec.bind_of_error hf']
      exact twin_restored h hl h.deep rfl

theorem twin_invoke (hnatives : b.library.Oblivious) (h : a.Twin k b)
    (hl : Pending.Beside k P Q l l') (callee : Value) (args : List Value) :
    Advance.Twin k P Q (State.invoke a l callee args) (State.invoke b l' callee args) := by
  cases callee with
  | closure c =>
    have hclosure : a.world.store.closure? c = b.world.store.closure? c :=
      h.shows (f := fun m => m.world.store.closure? c) fun _ _ _ => rfl
    unfold State.invoke
    dsimp only
    rw [hclosure]
    split
    · exact twin_startNested h hl _ args
    · rfl
  | native info => exact twin_startNative hnatives h hl info none args
  | bound info receiver => exact twin_startNative hnatives h hl info (some receiver) args
  | type t =>
    unfold State.invoke
    dsimp only
    split
    · exact twin_startConstruction h hl t args
    · exact twin_startConversion h hl t args
  | _ =>
    unfold State.invoke
    dsimp only
    rw [h.typeName]
    exact twin_refuse h hl _ _

/-!
# Handing over outcomes
-/

theorem twin_handOut (h : a.Twin k b) {x y : Pending} (hx : x.Alike k y)
    (hl : Pending.Beside k P Q l l') {o o' : Except Fault Value}
    (ho : untracedOutcome o = untracedOutcome o') :
    Advance.Twin k P Q (State.handOut a (x :: l) o) (State.handOut b (y :: l') o') := by
  have hout : a.outOfNative.Twin k b.outOfNative := h.map (f := Machine.outOfNative) (fun _ _ => rfl) rfl
  cases hx with
  | native hsn hresume => exact twin_handOver h hl _ hsn (hresume o o' _ _ ho h.world)
  | convert => exact twin_deliver hout hl ho
  | construct =>
    cases o with
    | ok v =>
      cases o' with
      | ok => exact twin_deliver hout hl rfl
      | error => cases ho
    | error f =>
      cases o' with
      | ok => cases ho
      | error => exact twin_deliver hout hl ho
  | @nested sn hsn =>
    cases o with
    | ok v =>
      cases o' with
      | ok =>
        exact twin_deliver (h.map (f := fun m => { m with ip := sn.ip }) (fun _ _ => rfl) rfl) hl ho
      | error => cases ho
    | error f =>
      cases o' with
      | ok => cases ho
      | error f' => exact twin_restored h hl hsn (Except.error.inj ho)
  | instruction =>
    cases o with
    | ok v =>
      cases o' with
      | ok =>
        cases ho
        exact ⟨h.map (f := fun m => { m with stack := m.stack.push v, ip := m.ip + 1 })
          (fun _ _ => rfl) rfl, hl, .running⟩
      | error => cases ho
    | error f =>
      cases o' with
      | ok => cases ho
      | error f' =>
        refine twin_deliver h hl (untracedOutcome_error ?_)
        obtain rfl | ⟨failure, message, problems, trace, trace', rfl, rfl⟩ :=
          Fault.untraced_cases (Except.error.inj ho)
        · exact h.locate f
        · rfl

/-- Transitions of twin states do the same, unless an outcome of the call itself is handed over or
the call returns. -/
theorem State.Twin.advance {s t : State} (hnatives : t.machine.library.Oblivious)
    (h : s.Twin k P Q t)
    (hret : t.mode = .running → t.machine.ops[t.machine.ip.toNat]? = some .ret →
      t.machine.calls.size ≠ k + 1)
    (hopen : ∀ o, t.mode = .delivering o → t.pending ≠ Q) :
    Advance.Twin k P Q s.advance t.advance := by
  obtain ⟨a, l, mode⟩ := s
  obtain ⟨b, l', mode'⟩ := t
  obtain ⟨hm, hl, hmode⟩ := h
  cases hmode with
  | running => exact twin_execute hm hl (hret rfl)
  | invoking => exact twin_invoke hnatives hm hl _ _
  | delivering ho =>
    cases hl with
    | floor => exact absurd rfl (hopen _ rfl)
    | cons hx hl => exact twin_handOut hm hx hl ho

end
end ScriptEngine
