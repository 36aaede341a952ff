import ScriptEngine.Proofs.Machine.Discipline

/-!
# Instructions keep runs in order

The operands of an instruction are those that the layout in front of it promises, so its work is
known; what it leaves behind is the layout of the place where it goes on.
-/

namespace ScriptEngine

section
variable {r : Regime} {m : Machine} {pending : List Pending} {g : Ground} {b : FrameId}
  {inCall : Bool} {a : Layout} {i : Nat}

/-!
# Operands off the stack
-/

theorem Value.Plain.admits {v : Value} (h : v.Plain) (s : Store) (n : NativeInfo → Prop) :
    s.Admits n v := by
  cases v with
  | null | number | text | boolean | type => trivial
  | _ => exact absurd h id

theorem Slot.Admits.holds {slot : Slot} {v : Value} (h : slot.Admits v) (tidy : Prop)
    (n : NativeInfo → Prop) (s : Store) : slot.Holds tidy n s v := by
  cases slot with
  | value => exact fun _ => Value.Plain.admits h s n
  | name => exact h
  | count => exact h
  | marker => exact h

/-- An instruction pops what lies on top of a layout. -/
theorem Poised.operands {l : List Slot}
    (hq : Poised r m.world.store g b inCall (a.pushAll l) m.posture) (hm : Sane r m) :
    ∃ values rest, m.Stacks (values ++ rest) ∧ Slot.Fill r.tidy r.known m.world.store l values ∧
      (m.leaving rest).Stacks rest ∧ Sane r (m.leaving rest) ∧
      Poised r m.world.store g b inCall a (m.leaving rest).posture := by
  obtain ⟨all, hall, hfill⟩ := hq.stacks hm.backed
  obtain ⟨values, below, rfl, hvalues, hbelow⟩ := Slot.Fill.split hfill
  rw [List.append_assoc] at hall
  exact ⟨values, below ++ g.stack, hall, hvalues, hall.leaving, hm.leaving hall,
    hq.leaving hall rfl hbelow rfl rfl rfl⟩

/-!
# Operations
-/

/-- Control goes on at the next instruction. -/
theorem inOrder_next (hm : Sane r m)
    (hs : Stands r m.world.store pending (.active g b inCall))
    (hq : Poised r m.world.store g b inCall a m.posture) (hip : m.ip = i) (hi : i < r.ops.size)
    (hty : r.ty (i + 1) = a) : Advance.InOrder r (State.proceed pending .next m) := by
  refine inOrder_at (i := i + 1) hm hs hq hi hty ?_
  rw [hip]
  rfl

section
variable (hm : Sane r m) (hs : Stands r m.world.store pending (.active g b inCall))
  (hip : m.ip = i) (hi : i < r.ops.size)
include hm hs hip hi

theorem after_push {v : Value} {slot : Slot}
    (hq : Poised r m.world.store g b inCall a m.posture) (hv : slot.Admits v)
    (hty : r.ty (i + 1) = a.push slot) :
    Advance.InOrder r (State.after pending (Exec.step (.push v) m)) :=
  inOrder_next (m := m.withStack (m.stack.push v))
    (hm.withStack (OperandStack.backed_push hm.backed v)) hs
    (hq.push slot hm.backed (hv.holds _ _ _)) hip hi hty

theorem after_buildList {n : Nat}
    (hq : Poised r m.world.store g b inCall ((a.pushAll (.replicate n .value)).push (.count n))
      m.posture) (hty : r.ty (i + 1) = a.push .value) :
    Advance.InOrder r (State.after pending (Exec.step .buildList m)) := by
  obtain ⟨values, rest, hstacks, hfill, -, hm', hq'⟩ :=
    Poised.operands (l := .count n :: .replicate n .value) hq hm
  obtain ⟨c, items, rfl, ⟨rfl, hn⟩, hitems⟩ := Slot.Fill.cons hfill
  obtain ⟨hlen, hgood⟩ := Slot.Fill.values hitems
  rw [Exec.step_buildList hn hlen hstacks]
  exact after_result hm' hs hq' hip hi hty (Exec.keeps_listOf hm'.clean hgood)

theorem after_buildDict {n : Nat}
    (hq : Poised r m.world.store g b inCall ((a.pushAll (.replicate (2 * n) .value)).push (.count n))
      m.posture) (hty : r.ty (i + 1) = a.push .value) :
    Advance.InOrder r (State.after pending (Exec.step .buildDict m)) := by
  obtain ⟨values, rest, hstacks, hfill, hrest, hm', hq'⟩ :=
    Poised.operands (l := .count n :: .replicate (2 * n) .value) hq hm
  obtain ⟨c, items, rfl, ⟨rfl, hn⟩, hitems⟩ := Slot.Fill.cons hfill
  obtain ⟨pairs, hlen, rfl, hgood⟩ := Slot.Fill.pairs hitems
  have hkeeps := Exec.keeps_dictOf hm'.clean hgood
  exact after_like hm' hs hq'.on hrest hkeeps (fun v m' => ⟨_, _, rfl⟩)
    (after_result hm' hs hq' hip hi hty hkeeps) (Exec.step_buildDict hn hlen hstacks)

theorem after_buildType {n : Nat} {name : Text}
    (hq : Poised r m.world.store g b inCall ((a.pushAll (.replicate n .name)).push (.count n))
      m.posture) (hty : r.ty (i + 1) = a.push .value) :
    Advance.InOrder r (State.after pending (Exec.step (.buildType name) m)) := by
  obtain ⟨values, rest, hstacks, hfill, -, hm', hq'⟩ :=
    Poised.operands (l := .count n :: .replicate n .name) hq hm
  obtain ⟨c, items, rfl, ⟨rfl, hn⟩, hitems⟩ := Slot.Fill.cons hfill
  obtain ⟨names, hlen, rfl⟩ := Slot.Fill.names hitems
  rw [Exec.step_buildType hn hlen hstacks]
  exact after_result hm' hs hq' hip hi hty (Exec.Keeps.pure hm'.clean fun _ => trivial)

theorem after_jumpPeek {expected : Bool} {d : Int} (hr : r.Valid)
    (hq : Poised r m.world.store g b inCall (a.push .value) m.posture)
    (hty : r.ty (i + 1) = a.push .value)
    (hd : Onward.At r.ty r.ops.size i d (a.push .value)) :
    Advance.InOrder r (State.after pending (Exec.step (.jumpPeek expected d) m)) := by
  obtain ⟨l, hl, hfill⟩ := hq.stacks hm.backed
  obtain ⟨v, rest, rfl, -, -⟩ := Slot.Fill.cons hfill
  rw [Exec.step_jumpPeek hl]
  refine after_bind hm hs hq.on (Exec.keeps_condition hm.clean v) ?_
  intro c s hgrows hm' _
  have hq' : Poised r s g b inCall (a.push .value) (m.withStore s).posture :=
    hq.extends hgrows.toExtends
  have hs' := hs.extends hgrows.toExtends
  show Advance.InOrder r (State.proceed pending (if c == expected then .skip d else .next)
    (m.withStore s))
  split
  · exact inOrder_skip hr hm' hs' hq' hip hd
  · exact inOrder_next hm' hs' hq' hip hi hty

theorem after_jumpIfFalse {d : Int} (hr : r.Valid)
    (hq : Poised r m.world.store g b inCall (a.push .value) m.posture)
    (hty : r.ty (i + 1) = a) (hd : Onward.At r.ty r.ops.size i d a) :
    Advance.InOrder r (State.after pending (Exec.step (.jumpIfFalse d) m)) := by
  obtain ⟨values, rest, hstacks, hfill, -, hm', hq'⟩ := Poised.operands (l := [.value]) hq hm
  obtain ⟨v, _, rfl, -, hnone⟩ := Slot.Fill.cons hfill
  obtain ⟨rfl⟩ := List.length_eq_zero_iff.mp hnone.length
  rw [Exec.step_jumpIfFalse hstacks]
  refine after_bind hm' hs hq'.on (Exec.keeps_condition hm'.clean v) ?_
  intro c s hgrows hm₁ _
  have hq₁ : Poised r s g b inCall a ((m.leaving rest).withStore s).posture :=
    hq'.extends hgrows.toExtends
  have hs₁ := hs.extends hgrows.toExtends
  show Advance.InOrder r (State.proceed pending (if c then .next else .skip d)
    ((m.leaving rest).withStore s))
  split
  · exact inOrder_next hm₁ hs₁ hq₁ hip hi hty
  · exact inOrder_skip hr hm₁ hs₁ hq₁ hip hd

/-- An instruction of one operand whose work gives a result. -/
theorem after_unary {op : Op} {work : Value → Exec Value}
    (hq : Poised r m.world.store g b inCall (a.push .value) m.posture)
    (hty : r.ty (i + 1) = a.push .value)
    (hstep : ∀ {v rest}, m.Stacks (v :: rest) →
      Exec.step op m = Exec.result (work v) (m.leaving rest))
    (hwork : ∀ {m' v}, (r.tidy → m'.world.store.Neat r.strict r.known) →
      Exec.Keeps r.tidy r.strict r.known (work v) m' (Exec.Good r.tidy r.known)) :
    Advance.InOrder r (State.after pending (Exec.step op m)) := by
  obtain ⟨values, rest, hstacks, hfill, -, hm', hq'⟩ := Poised.operands (l := [.value]) hq hm
  obtain ⟨v, _, rfl, -, hnone⟩ := Slot.Fill.cons hfill
  obtain ⟨rfl⟩ := List.length_eq_zero_iff.mp hnone.length
  rw [hstep hstacks]
  exact after_result hm' hs hq' hip hi hty (hwork hm'.clean)

theorem after_call {n : Nat}
    (hq : Poised r m.world.store g b inCall
      (((a.pushAll (.replicate n .value)).push (.count n)).push .value) m.posture)
    (hty : r.ty (i + 1) = a.push .value) :
    Advance.InOrder r (State.after pending (Exec.step .call m)) := by
  obtain ⟨values, rest, hstacks, hfill, -, hm', hq'⟩ :=
    Poised.operands (l := .value :: .count n :: .replicate n .value) hq hm
  obtain ⟨callee, _, rfl, hcallee, hfill⟩ := Slot.Fill.cons hfill
  obtain ⟨c, args, rfl, ⟨rfl, hn⟩, hargs⟩ := Slot.Fill.cons hfill
  obtain ⟨hlen, hgood⟩ := Slot.Fill.values hargs
  rw [Exec.step_call hn hlen hstacks]
  refine after_bind hm' hs hq'.on
    (Exec.keeps_copyArgs hm'.clean hgood fun v hv => absurd hv List.not_mem_nil) ?_
  intro args' s hgrows hm₁ ⟨_, hargs'⟩
  exact after_callValue hm₁ (hs.extends hgrows.toExtends) (hq'.extends hgrows.toExtends) hip hi hty
    (fun ht => (hcallee ht).grows hgrows) hargs'

theorem after_dispatch {n : Nat} {op : Text}
    (hq : Poised r m.world.store g b inCall
      ((a.pushAll (.replicate (n + 1) .value)).push (.count (n + 1))) m.posture)
    (hty : r.ty (i + 1) = a.push .value) :
    Advance.InOrder r (State.after pending (Exec.step (.dispatch op) m)) := by
  obtain ⟨values, rest, hstacks, hfill, -, hm', hq'⟩ :=
    Poised.operands (l := .count (n + 1) :: .replicate (n + 1) .value) hq hm
  obtain ⟨c, args, rfl, ⟨rfl, hn⟩, hargs⟩ := Slot.Fill.cons hfill
  obtain ⟨hlen, hgood⟩ := Slot.Fill.values hargs
  rw [Exec.step_dispatch hn hlen hstacks]
  refine after_bind hm' hs hq'.on
    (Exec.keeps_copyArgs hm'.clean hgood fun v hv => absurd hv List.not_mem_nil) ?_
  intro args' s hgrows hm₁ ⟨hlen', hargs'⟩
  cases args' with
  | nil =>
    rw [hlen] at hlen'
    cases hlen'
  | cons first rest' =>
    exact after_applyOperator hm₁ (hs.extends hgrows.toExtends) (hq'.extends hgrows.toExtends) hip
      hi hty hargs'

omit hip hi in
theorem after_ret (hq : Poised r m.world.store g b inCall (a.push .value) m.posture)
    (ha : a.slots = []) (hstay : r.floor ≠ some (pending, .active g b inCall)) :
    Advance.InOrder r (State.after pending (Exec.step .ret m)) := by
  obtain ⟨values, rest, hstacks, hfill, -, hm', hq'⟩ := Poised.operands (l := [.value]) hq hm
  obtain ⟨v, _, rfl, hv, hnone⟩ := Slot.Fill.cons hfill
  obtain ⟨rfl⟩ := List.length_eq_zero_iff.mp hnone.length
  rw [Exec.step_ret hstacks]
  exact after_giveBack hm' hs hq' ha hv hstay

theorem after_getVar {name : Text} (hq : Poised r m.world.store g b inCall a m.posture)
    (hty : r.ty (i + 1) = a.push .value) :
    Advance.InOrder r (State.after pending (Exec.step (.getVar name) m)) := by
  rw [Exec.step_getVar]
  exact after_result hm hs hq hip hi hty (Exec.keeps_variable hm.clean hm.bindings name)

theorem after_getMember
    (hq : Poised r m.world.store g b inCall ((a.push .value).push .value) m.posture)
    (hty : r.ty (i + 1) = a.push .value) :
    Advance.InOrder r (State.after pending (Exec.step .getMember m)) := by
  obtain ⟨values, rest, hstacks, hfill, -, hm', hq'⟩ :=
    Poised.operands (l := [.value, .value]) hq hm
  obtain ⟨key, _, rfl, -, hfill⟩ := Slot.Fill.cons hfill
  obtain ⟨object, _, rfl, hobject, hnone⟩ := Slot.Fill.cons hfill
  obtain ⟨rfl⟩ := List.length_eq_zero_iff.mp hnone.length
  rw [Exec.step_getMember hstacks]
  exact after_result hm' hs hq' hip hi hty (Exec.keeps_member hm'.clean hm'.bindings hobject key)

/-- Both kinds of assignment: a name under the marker, or a key under an object. -/
theorem after_assign {scope : Scope} {key object : Slot}
    (hq : Poised r m.world.store g b inCall (((a.push .value).push object).push key) m.posture)
    (htarget : ∀ {v w}, key.Holds r.tidy r.known m.world.store v →
      object.Holds r.tidy r.known m.world.store w → r.tidy → (∃ t, v = .text t) ∨ w ≠ .empty)
    (hty : r.ty (i + 1) = a.push .value) :
    Advance.InOrder r (State.after pending (Exec.step (.assign scope) m)) := by
  obtain ⟨values, rest, hstacks, hfill, -, hm', hq'⟩ :=
    Poised.operands (l := [key, object, .value]) hq hm
  obtain ⟨v, _, rfl, hv, hfill⟩ := Slot.Fill.cons hfill
  obtain ⟨w, _, rfl, hw, hfill⟩ := Slot.Fill.cons hfill
  obtain ⟨value, _, rfl, hvalue, hnone⟩ := Slot.Fill.cons hfill
  obtain ⟨rfl⟩ := List.length_eq_zero_iff.mp hnone.length
  rw [Exec.step_assign hstacks]
  refine after_result hm' hs hq' hip hi hty
    (Exec.keeps_place hm'.clean (fun _ => ?_) (htarget hv hw) hvalue)
  obtain ⟨f, hf, -⟩ := hq'.frame
  rw [show (m.leaving rest).frame = some f from hf]
  exact Option.some_ne_none f

theorem after_bump {name : Text} {up : Bool}
    (hq : Poised r m.world.store g b inCall a m.posture) (hty : r.ty (i + 1) = a) :
    Advance.InOrder r (State.after pending (Exec.step (.bump name up) m)) := by
  refine after_bind hm hs hq.on (Exec.keeps_bump hm.clean name up) ?_
  intro _ s hgrows hm' _
  have hq' : Poised r s g b inCall a (m.withStore s).posture := hq.extends hgrows.toExtends
  exact inOrder_next hm' (hs.extends hgrows.toExtends) hq' hip hi hty

theorem after_pop (hq : Poised r m.world.store g b inCall (a.push .value) m.posture)
    (hty : r.ty (i + 1) = a) : Advance.InOrder r (State.after pending (Exec.step .pop m)) := by
  obtain ⟨values, rest, hstacks, hfill, -, hm', hq'⟩ := Poised.operands (l := [.value]) hq hm
  obtain ⟨v, _, rfl, -, hnone⟩ := Slot.Fill.cons hfill
  obtain ⟨rfl⟩ := List.length_eq_zero_iff.mp hnone.length
  rw [Exec.step_pop hstacks]
  exact inOrder_next hm' hs hq' hip hi hty

/-!
# Scopes and functions
-/

theorem after_scopeEnter (hq : Poised r m.world.store g b inCall a m.posture)
    (hty : r.ty (i + 1) = a.enter) :
    Advance.InOrder r (State.after pending (Exec.step .scopeEnter m)) := by
  obtain ⟨f, hf, habove⟩ := hq.frame
  obtain ⟨fr, hfr⟩ : ∃ fr : Frame, fr = ⟨Table.empty, m.frame, .block⟩ := ⟨_, rfl⟩
  have hgrows := Store.Grows.newFrame m.world.store fr
  have hm' := hm.grows hgrows fun ht => (hm.clean ht).newFrame (by
    rw [hfr]
    exact Table.All.empty)
  obtain ⟨_, hhere⟩ := habove.frame
  have hlt : f < m.world.store.frames.size := (Array.getElem?_eq_some_iff.mp hhere).1
  have houter : fr.outer = some f := by
    rw [hfr]
    exact hf
  have hnew : (m.world.store.newFrame fr).2.Above (m.world.store.newFrame fr).1 (a.scopes + 1) b :=
    .block (Store.newFrame_frame? m.world.store fr) (by rw [hfr]) houter hlt
      (habove.extends hgrows.toExtends)
  have hsaid : Exec.step .scopeEnter m = .ok .next
      { m.withStore (m.world.store.newFrame fr).2 with
        frame := some (m.world.store.newFrame fr).1 } := by
    rw [hfr]
    rfl
  rw [hsaid]
  refine inOrder_next ⟨hm'.backed, hm'.runs, hm'.decoded, hm'.table, hm'.entries, hm'.clean,
    hm'.bindings⟩ (hs.extends hgrows.toExtends) ?_ hip hi hty
  have hq' := hq.extends hgrows.toExtends
  exact ⟨hq'.stack, ⟨_, rfl, hnew⟩, hq'.captured, hq'.calls, hq'.natives, hq'.live, hq'.inCall⟩

theorem after_scopeExit (hq : Poised r m.world.store g b inCall a.enter m.posture)
    (hty : r.ty (i + 1) = a) :
    Advance.InOrder r (State.after pending (Exec.step .scopeExit m)) := by
  obtain ⟨f, hf, habove⟩ := hq.frame
  cases habove with
  | @block _ f' _ _ fr hfr hkind houter hlt habove =>
    have hfound : (Exec.reads fun m => m.frame.bind fun f => m.world.store.frame? f) m =
        .ok (some fr) m := by
      unfold Exec.reads
      simp only [show m.frame = some f from hf, Option.bind_some, hfr]
    have hblock : fr.isBoundary = false := by
      unfold Frame.isBoundary
      rw [hkind]
    have hsaid : Exec.step .scopeExit m = .ok .next { m with frame := some f' } := by
      show ((Exec.reads fun m => m.frame.bind fun f => m.world.store.frame? f) >>= _) m = _
      rw [Exec.bind_of_ok hfound]
      simp only [hblock, houter]
      rfl
    rw [hsaid]
    refine inOrder_next (a := a) ⟨hm.backed, hm.runs, hm.decoded, hm.table, hm.entries, hm.clean,
      hm.bindings⟩ hs ?_ hip hi hty
    exact ⟨hq.stack, ⟨f', rfl, habove⟩, hq.captured, hq.calls, hq.natives, hq.live, hq.inCall⟩

theorem after_buildFunc {n : Nat} {d : Int} (hr : r.Valid)
    (hq : Poised r m.world.store g b inCall ((a.pushAll (Layout.params n)).push (.count n))
      m.posture)
    (hbody : r.ty (i + 1) = .entry) (hd : Onward.At r.ty r.ops.size i d (a.push .value)) :
    Advance.InOrder r (State.after pending (Exec.step (.buildFunc d) m)) := by
  obtain ⟨values, rest, hstacks, hfill, hrest, hm', hq'⟩ :=
    Poised.operands (l := .count n :: Layout.params n) hq hm
  obtain ⟨c, items, rfl, ⟨rfl, hn⟩, hitems⟩ := Slot.Fill.cons hfill
  obtain ⟨params, hlen, rfl⟩ := Slot.Fill.params hitems
  have hlike := Exec.step_buildFunc (d := d) hn hlen hstacks
  unfold Exec.closureOf at hlike
  rw [Exec.bind_assoc] at hlike
  have hkeeps := Exec.keeps_guardAll hm'.clean params []
  refine after_like hm' hs hq'.on hrest hkeeps (fun v m' => ⟨_, _, rfl⟩) ?_ hlike
  refine after_bind hm' hs hq'.on hkeeps ?_
  intro ps s hgrows hm₁ _
  -- Only here a closure with a new entry comes into the store.
  obtain ⟨cl, hcl⟩ : ∃ cl : Closure, cl = ⟨m.ip + 1, m.frame, ps, Text.empty, none⟩ := ⟨_, rfl⟩
  have hentry : cl.entry = ((i + 1 : Nat) : Int) := by
    rw [hcl]
    show m.ip + 1 = _
    rw [hip]
    rfl
  have hreceiver : cl.receiver = none := by rw [hcl]
  have hm₂ := hm₁.newClosure hentry hi hbody hreceiver
  have hextends := hgrows.toExtends.trans (Store.Extends.newClosure s cl)
  have hgood : Slot.Holds r.tidy r.known (s.newClosure cl).2 .value (.closure (s.newClosure cl).1) :=
    fun _ => Store.admits_newClosure s cl r.known
  have hsaid := inOrder_skip hr
    (hm₂.withStack (OperandStack.backed_push hm₂.backed (.closure (s.newClosure cl).1)))
    (hs.extends hextends) (Poised.push .value (hq'.extends hextends) hm₂.backed hgood) hip hd
  rw [hcl] at hsaid
  exact hsaid

/-!
# The current instruction
-/

theorem step_inOrder {op : Op} (hr : r.Valid) (hop : r.ops[i]? = some op)
    (hq : Poised r m.world.store g b inCall (r.ty i) m.posture)
    (hstay : op = .ret → r.floor ≠ some (pending, .active g b inCall)) :
    Advance.InOrder r (State.after pending (Exec.step op m)) := by
  obtain ⟨o, hflow, hlands⟩ := hr.fit.flows i op hop hq.live
  generalize r.ty i = here at hflow hq
  cases hflow with
  | push hv => exact after_push hm hs hip hi hq hv hlands
  | buildList => exact after_buildList hm hs hip hi hq hlands
  | buildDict => exact after_buildDict hm hs hip hi hq hlands
  | buildType => exact after_buildType hm hs hip hi hq hlands
  | buildFunc => exact after_buildFunc hm hs hip hi hr hq hlands.1 hlands.2
  | jump => exact inOrder_skip hr hm hs hq hip hlands
  | jumpPeek => exact after_jumpPeek hm hs hip hi hr hq hlands.1 hlands.2
  | jumpIfFalse => exact after_jumpIfFalse hm hs hip hi hr hq hlands.1 hlands.2
  | call => exact after_call hm hs hip hi hq hlands
  | dispatch => exact after_dispatch hm hs hip hi hq hlands
  | ret ha => exact after_ret hm hs hq ha (hstay rfl)
  | getVar => exact after_getVar hm hs hip hi hq hlands
  | getMember => exact after_getMember hm hs hip hi hq hlands
  | assignName =>
    exact after_assign hm hs hip hi hq (fun hname _ _ => Or.inl hname) hlands
  | assignMember =>
    refine after_assign hm hs hip hi hq (fun _ hobject ht => Or.inr ?_) hlands
    rintro rfl
    exact hobject ht
  | bump => exact after_bump hm hs hip hi hq hlands
  | negate => exact after_unary hm hs hip hi hq hlands Exec.step_negate (Exec.keeps_negated · _)
  | not => exact after_unary hm hs hip hi hq hlands Exec.step_not (Exec.keeps_inverted · _)
  | stray => exact inOrder_fault hm hs hq.on fun _ => by simp [Fault.Known, Failure.Known]
  | scopeEnter => exact after_scopeEnter hm hs hip hi hq hlands
  | scopeExit => exact after_scopeExit hm hs hip hi hq hlands
  | pop => exact after_pop hm hs hip hi hq hlands

end

/-- Executing is one step of the current instruction, which the journal may be told about. -/
theorem State.execute_eq {p : Program} {op : Op} (hp : m.program = some p) (hip : m.ip = i)
    (hi : i < p.size) (hop : m.ops[i]? = some op) (pending : List Pending) :
    ∃ j, State.execute m pending = State.after pending (Exec.step op (m.withJournal j)) := by
  obtain ⟨j, hj⟩ : ∃ j, (if m.options.trace then m.tell .debug State.traceLine else m) =
      m.withJournal j := by
    split
    · exact m.tell_eq .debug State.traceLine
    · exact ⟨m.world.journal, rfl⟩
  have hinside : ¬ (p.size : Int) ≤ m.ip := by omega
  have hplace : ¬ m.ip < 0 := by omega
  have hget : (m.withJournal j).ops[(m.withJournal j).ip.toNat]? = some op := by
    rw [show (m.withJournal j).ip = i from hip]
    exact hop
  refine ⟨j, ?_⟩
  unfold State.execute
  simp only [hp, hinside, hplace, if_false, hj, hget]
  rfl

theorem execute_inOrder (hr : r.Valid) (hm : Sane r m)
    (hs : Stands r m.world.store pending (.active g b inCall))
    (hq : Poised r m.world.store g b inCall (r.ty i) m.posture) (hip : m.ip = i)
    (hi : i ≤ r.ops.size)
    (hstay : (∀ op, r.ops[i]? = some op → op = .ret) →
      r.floor ≠ some (pending, .active g b inCall)) :
    Advance.InOrder r (State.execute m pending) := by
  rcases Nat.lt_or_eq_of_le hi with hlt | rfl
  · obtain ⟨op, hop⟩ : ∃ op, r.ops[i]? = some op := ⟨_, Array.getElem?_eq_getElem hlt⟩
    obtain ⟨j, hj⟩ := State.execute_eq hm.runs hip (hr.size.symm ▸ hlt) (hm.decoded.symm ▸ hop) pending
    rw [hj]
    refine step_inOrder (m := m.withJournal j) (hm.withJournal j) hs hip hlt hr hop hq fun hret => ?_
    refine hstay fun op' hop' => ?_
    rw [hop] at hop'
    exact (Option.some.inj hop').symm.trans hret
  · -- Control is at the end of the program, which belongs to no call.
    have hend : (r.program.size : Int) ≤ m.ip := Int.le_of_eq (by rw [hip, hr.size])
    rw [hr.fit.stop] at hq
    have htop : inCall = false := hq.inCall.symm
    subst htop
    have hpast : ∀ op, r.ops[r.ops.size]? = some op → op = .ret := fun op hop => by
      rw [Array.getElem?_eq_none (Nat.le_refl _)] at hop
      cases hop
    obtain ⟨rfl, hfloor, rfl⟩ := hs.notInCall (hstay hpast)
    have hcalls : m.calls.isEmpty = true := by
      rw [show m.calls = #[] from hq.calls]
      rfl
    unfold State.execute
    simp only [hm.runs, hend, hcalls, if_true]
    refine .ended hm hfloor hq.on ?_ fun _ => trivial
    obtain ⟨l, hstack, hfill⟩ := hq.stack
    obtain ⟨rfl⟩ := List.length_eq_zero_iff.mp hfill.length
    exact hstack

end
end ScriptEngine
