import ScriptEngine.Proofs.Machine.Calls
import ScriptEngine.Proofs.Program.Marks

/-!
# Activations that use names as agreed

Operations that use names as agreed keep what their marks say: which names the open scopes of the
activation bind, and how far an assignment to a name has got.
-/

namespace ScriptEngine

/-- From the frame out to the base there is a block for each entry of the list, which binds the names of
the entry. -/
inductive Store.Bears (s : Store) (base : FrameId) : List (List Text) → FrameId → Prop
  | base {fr : Frame} (hb : s.frame? base = some fr) : Bears s base [] base
  | block {f f' : FrameId} {fr : Frame} {names : List Text} {l : List (List Text)}
    (hf : s.frame? f = some fr) (houter : fr.outer = some f') (hlt : f' < f)
    (hbinds : ∀ t ∈ names, s.Binds f t) (h : Bears s base l f') : Bears s base (names :: l) f

/-- What the top of the operand stack is, if there are values at all. -/
def Mark.Stage.Shows (st : OperandStack) : Mark.Stage → Prop
  | idle => True
  | marker => ∀ v, st.top? = some v → v = .empty
  | named t => ∀ v, st.top? = some v → v = .text t ∧ ∀ v', st.drop.top? = some v' → v' = .empty

/-- How an operation goes on in its function, unless it calls or returns. -/
def Op.Continues (op : Op) (n : Exec.Next) : Prop :=
  match op with
  | .jump d | .buildFunc d => n = .skip d
  | .jumpPeek _ d | .jumpIfFalse d => n = .next ∨ n = .skip d
  | .call | .dispatch _ | .ret => True
  | _ => n = .next

section
variable {u : Usage} {ty : Nat → Layout} {s s' : Store} {l : List (List Text)} {base f : FrameId}
  {m m' : Machine} {ops : Array Op} {op : Op} {a : Mark} {i : Nat}

namespace Store

theorem Bears.extends (h : s.Bears base l f) (hs : s.Extends s')
    (hbinds : ∀ g name, s.Binds g name → s'.Binds g name) : s'.Bears base l f := by
  induction h with
  | base hb =>
    obtain ⟨fr', hb', -⟩ := hs.frames _ _ hb
    exact .base hb'
  | block hf houter hlt hnames _ ih =>
    obtain ⟨fr', hf', -, houter'⟩ := hs.frames _ _ hf
    exact .block hf' (houter'.trans houter) hlt (fun t ht => hbinds _ _ (hnames t ht)) ih

theorem Bears.rewrites {own : FrameId → Prop} (h : s.Bears base l f) (hs : s.Rewrites own s') :
    s'.Bears base l f :=
  h.extends hs.toExtends hs.binds

theorem Bears.frame (h : s.Bears base l f) : ∃ fr, s.frame? f = some fr := by
  cases h with
  | base hb => exact ⟨_, hb⟩
  | block hf => exact ⟨_, hf⟩

/-- Binding a name in the innermost scope. -/
theorem Bears.bound {names : List Text} {t : Text} (h : s.Bears base (names :: l) f)
    (ht : s.Binds f t) : s.Bears base ((t :: names) :: l) f := by
  cases h with
  | block hf houter hlt hnames h =>
    refine .block hf houter hlt (fun t' ht' => ?_) h
    rcases List.mem_cons.mp ht' with rfl | ht'
    · exact ht
    · exact hnames t' ht'

/-- The innermost scope binds its names. -/
theorem Bears.head {names : List Text} (h : s.Bears base (names :: l) f) : ∀ t ∈ names, s.Binds f t := by
  cases h with
  | block _ _ _ hnames => exact hnames

theorem Bears.base_le (h : s.Bears base l f) : base ≤ f := by
  induction h with
  | base => exact Nat.le_refl _
  | block _ _ hlt _ _ ih => exact Nat.le_of_lt (Nat.lt_of_le_of_lt ih hlt)

/-- A scope inside the base is not the base. -/
theorem Bears.base_lt {names : List Text} (h : s.Bears base (names :: l) f) : base < f := by
  cases h with
  | block _ _ hlt _ h => exact Nat.lt_of_le_of_lt h.base_le hlt

end Store

/-- A lookup that starts where the name is bound ends there. -/
theorem Store.Binds.lookup_eq {name : Text} {v : Value} {g : FrameId} {shallow : Bool}
    (h : s.Binds f name) (hlookup : s.lookup (some f) name shallow = some (v, g)) : g = f := by
  obtain ⟨fr, hfr, hbound⟩ := h
  obtain ⟨u, hu⟩ := Option.isSome_iff_exists.mp hbound
  unfold Store.lookup Store.walkFuel Store.lookupFrom at hlookup
  simp only [hfr, hu] at hlookup
  cases hlookup
  rfl

/-!
# What is on the stack
-/

theorem OperandStack.top?_push {st : OperandStack} {v w : Value} (h : (st.push v).top? = some w) :
    w = v ∧ ∀ w', (st.push v).drop.top? = some w' → st.top? = some w' := by
  obtain ⟨slots, height⟩ := st
  rcases Nat.lt_or_ge height slots.size with hlt | hge
  · have hpush : OperandStack.push ⟨slots, height⟩ v =
        ⟨slots.setIfInBounds height v, height + 1⟩ := if_pos hlt
    rw [hpush] at h ⊢
    have htop : (slots.setIfInBounds height v)[height]? = some w := h
    rw [Array.getElem?_setIfInBounds_self_of_lt hlt] at htop
    refine ⟨(Option.some.inj htop).symm, fun w' hw' => ?_⟩
    cases height with
    | zero => cases hw'
    | succ height =>
      have hw' : (slots.setIfInBounds (height + 1) v)[height]? = some w' := hw'
      rw [Array.getElem?_setIfInBounds_ne (Nat.succ_ne_self height)] at hw'
      exact hw'
  · have hpush : OperandStack.push ⟨slots, height⟩ v = ⟨slots.push v, height + 1⟩ :=
      if_neg (Nat.not_lt.mpr hge)
    rw [hpush] at h ⊢
    have htop : (slots.push v)[height]? = some w := h
    have hsize : height = slots.size := by
      have hlt := (Array.getElem?_eq_some_iff.mp htop).1
      rw [Array.size_push] at hlt
      omega
    rw [hsize, Array.getElem?_push_size] at htop
    refine ⟨(Option.some.inj htop).symm, fun w' hw' => ?_⟩
    cases height with
    | zero => cases hw'
    | succ height =>
      have hw' : (slots.push v)[height]? = some w' := hw'
      rw [Array.getElem?_push, if_neg (by omega)] at hw'
      exact hw'

theorem Mark.Stage.Shows.push {st : OperandStack} {stage : Mark.Stage} (h : stage.Shows st)
    (v : Value) : (stage.push v).Shows (st.push v) := by
  have hmarker : Mark.Stage.marker.Shows (st.push .empty) := fun w hw =>
    (OperandStack.top?_push hw).1
  cases v with
  | empty => cases stage <;> exact hmarker
  | text t =>
    cases stage with
    | idle | named => trivial
    | marker =>
      intro w hw
      obtain ⟨rfl, hbelow⟩ := OperandStack.top?_push hw
      exact ⟨rfl, fun w' hw' => h w' (hbelow w' hw')⟩
  | _ => cases stage <;> trivial

namespace Exec

theorem pop_ok {v : Value} (h : pop m = .ok v m') :
    m.stack.top? = some v ∧ m' = { m with stack := m.stack.drop } := by
  unfold pop at h
  split at h
  · rename_i htop
    cases h
    exact ⟨htop, rfl⟩
  · cases h

theorem bind_eq_ok {α β : Type} {x : Exec α} {k : α → Exec β} {b : β}
    (h : (x >>= k) m = .ok b m') : ∃ a m₁, x m = .ok a m₁ ∧ k a m₁ = .ok b m' := by
  cases hx : x m with
  | ok a m₁ =>
    rw [bind_of_ok hx] at h
    exact ⟨a, m₁, rfl, h⟩
  | error e m₁ =>
    rw [bind_of_error hx] at h
    cases h

theorem Quiet.works_ok {α : Type} {x : Exec α} {a : α} (hx : Quiet x) (h : x m = .ok a m') :
    m.Works (fun _ => False) m' := by
  have hm := hx m
  unfold Works at hm
  rw [h] at hm
  exact hm.1

theorem bindName_inner {v : Value} {name : Text} {u : Unit} {fr : Frame} (hf : m.frame = some f)
    (hfr : m.world.store.frame? f = some fr) (h : bindName .inner name v m = .ok u m') :
    m'.world.store.Binds f name := by
  have hrun : bindName .inner name v m = .ok () (m.withStore (m.world.store.define f name v)) := by
    show (reads (·.frame) >>= _) m = _
    rw [bind_of_ok (show reads (·.frame) m = .ok (some f) m by rw [← hf]; rfl)]
    rfl
  rw [hrun] at h
  cases h
  exact Store.binds_define hfr name v

/-- An assignment binds a name in the current frame if that is what the stack shows. -/
theorem assign_binds {t : Text} {v : Unit} {fr : Frame} (hf : m.frame = some f)
    (hfr : m.world.store.frame? f = some fr) (hshows : (Mark.Stage.named t).Shows m.stack)
    (h : assign .inner m = .ok v m') : m'.world.store.Binds f t := by
  obtain ⟨name, m₁, hname, h⟩ := bind_eq_ok h
  obtain ⟨htop, rfl⟩ := pop_ok hname
  obtain ⟨target, m₂, htarget, h⟩ := bind_eq_ok h
  obtain ⟨htop', rfl⟩ := pop_ok htarget
  obtain ⟨rfl, hbelow⟩ := hshows name htop
  obtain rfl := hbelow target htop'
  obtain ⟨value, m₃, hvalue, h⟩ := bind_eq_ok h
  obtain ⟨copied, m₄, hcopied, h⟩ := bind_eq_ok h
  obtain ⟨_, m₅, hnamed, h⟩ := bind_eq_ok h
  obtain ⟨_, m₆, hbound, h⟩ := bind_eq_ok h
  have hworks : m.Works (fun _ => False) m₅ :=
    (((Machine.Works.withStack m m.stack.drop.drop).trans (quiet_pop.works_ok hvalue)).trans
      ((quiet_copy value).works_ok hcopied)).trans ((quiet_nameClosure copied _).works_ok hnamed)
  have hfr₅ : m₅.world.store.frame? f = some fr := by
    rw [hworks.store.others f id]
    exact hfr
  have hbinds := bindName_inner (hworks.frame.trans hf) hfr₅ hbound
  cases h
  exact hbinds

/-!
# Where instructions go on
-/

/-- What the computation ends with, if it does, has the property. -/
def Yields {α : Type} (x : Exec α) (P : α → Prop) : Prop :=
  ∀ m a m', x m = .ok a m' → P a

variable {α β : Type} {P : β → Prop}

theorem Yields.bind {x : Exec α} {k : α → Exec β} (h : ∀ a, Yields (k a) P) : Yields (x >>= k) P := by
  intro m b m' hrun
  obtain ⟨a, m₁, -, hk⟩ := bind_eq_ok hrun
  exact h a m₁ b m' hk

theorem Yields.pure {b : β} (h : P b) : Yields (Pure.pure b) P := by
  intro m b' m' hrun
  cases hrun
  exact h

theorem Yields.crash {message : Text} : Yields (Exec.crash message) P := by
  intro m b m' hrun
  cases hrun

theorem Yields.raise {f : Failure} {message : Text} : Yields (Exec.raise f message) P := by
  intro m b m' hrun
  cases hrun

theorem yields_step (op : Op) : Yields (step op) op.Continues := by
  cases op with
  | push v => exact .bind fun _ => .pure rfl
  | buildList =>
    exact .bind fun _ => .bind fun _ => .bind fun _ => .bind fun _ => .bind fun _ => .pure rfl
  | buildDict => exact .bind fun _ => .bind fun _ => .bind fun _ => .bind fun _ => .pure rfl
  | buildType name => exact .bind fun _ => .bind fun _ => .bind fun _ => .bind fun _ => .pure rfl
  | buildFunc d => exact .bind fun _ => .bind fun _ => .pure rfl
  | jump d => exact .pure rfl
  | jumpPeek expected d =>
    refine .bind fun _ => .bind fun b => .pure ?_
    cases b == expected
    · exact Or.inl rfl
    · exact Or.inr rfl
  | jumpIfFalse d =>
    refine .bind fun _ => .bind fun b => .pure ?_
    cases b
    · exact Or.inr rfl
    · exact Or.inl rfl
  | call => exact fun _ _ _ _ => trivial
  | dispatch op => exact fun _ _ _ _ => trivial
  | ret => exact fun _ _ _ _ => trivial
  | getVar name =>
    refine .bind fun found => ?_
    cases found with
    | none => exact .raise
    | some v => exact .bind fun _ => .pure rfl
  | getMember => exact .bind fun _ => .bind fun _ => .bind fun _ => .bind fun _ => .pure rfl
  | assign scope => exact .bind fun _ => .pure rfl
  | bump name up => exact .bind fun _ => .pure rfl
  | negate =>
    refine .bind fun v => ?_
    cases v with
    | number y => exact .bind fun _ => .pure rfl
    | _ => exact .bind fun _ => .raise
  | not => exact .bind fun _ => .bind fun _ => .bind fun _ => .pure rfl
  | stray again => exact .raise
  | scopeEnter => exact .bind fun _ => .bind fun _ => .bind fun _ => .pure rfl
  | scopeExit =>
    refine .bind fun found => ?_
    cases found with
    | none => exact .crash
    | some fr =>
      dsimp only
      split
      · exact .crash
      · exact .bind fun _ => .pure rfl
  | pop => exact .bind fun _ => .pure rfl
  | unknown b => exact .crash

/-- An instruction that goes on in its function says from where it stands how far. -/
theorem step_ip {n : Next} (hret : op ≠ .ret) (hrun : step op m = .ok n m') (hn : n.Onward) : m'.ip = m.ip := by
  have hcalling : Calling m (.ok n m') → m'.ip = m.ip := by
    intro h
    cases h with
    | handed => exact absurd hn id
    | entered => exact absurd hn id
  have hlocal : op.Local → m'.ip = m.ip := by
    intro hlocal
    have hstep := works_step hlocal m
    unfold Works at hstep
    rw [hrun] at hstep
    exact hstep.1.ip
  cases op with
  | ret => exact absurd rfl hret
  | call => exact hcalling (hrun ▸ calling_call m)
  | dispatch name => exact hcalling (hrun ▸ calling_dispatch name m)
  | scopeEnter =>
    rw [step_scopeEnter] at hrun
    cases hrun
    rfl
  | scopeExit =>
    have hstep := closing_scopeExit m
    rw [hrun] at hstep
    cases hstep
    rfl
  | buildFunc d =>
    have hstep := building_buildFunc d m
    rw [hrun] at hstep
    cases hstep with
    | built hm => exact hm.ip
  | _ => exact hlocal trivial

/-- Control goes on at a position that the operation hands it to. -/
theorem step_lands {n : Next} {P Q : Nat → Prop} (hhands : op.Hands ops i P Q)
    (hsize : ops.size ≤ Slot.limit) (hret : op ≠ .ret) (hrun : step op m = .ok n m') (hn : n.Onward)
    (hip : m'.ip = i) : ∃ j : Nat, n.target m'.ip = j ∧ P j := by
  have hnext : n = .next → P (i + 1) → ∃ j : Nat, n.target m'.ip = j ∧ P j := by
    rintro rfl h
    exact ⟨i + 1, by rw [hip]; rfl, h⟩
  have hskip : ∀ {d : Int}, n = .skip d → Op.Lands ops i d P →
      ∃ j : Nat, n.target m'.ip = j ∧ P j := by
    rintro d rfl ⟨j, hj, hle, h⟩
    refine ⟨j, ?_, h⟩
    show Number.wrapWord (m'.ip + 1 + d) = j
    rw [hip, ← hj]
    exact wrapWord_of_le (Nat.le_trans hle hsize)
  have hcalling : Calling m (.ok n m') → ∃ j : Nat, n.target m'.ip = j ∧ P j := by
    intro h
    cases h with
    | handed => exact absurd hn id
    | entered => exact absurd hn id
  have hyields := yields_step op m n m' hrun
  cases op with
  | ret => exact absurd rfl hret
  | stray again => cases hrun
  | unknown b => cases hrun
  | call => exact hcalling (hrun ▸ calling_call m)
  | dispatch name => exact hcalling (hrun ▸ calling_dispatch name m)
  | jump d => exact hskip hyields hhands
  | buildFunc d => exact hskip hyields hhands.2
  | jumpPeek expected d => exact hyields.elim (hnext · hhands.1) (hskip · hhands.2)
  | jumpIfFalse d => exact hyields.elim (hnext · hhands.1) (hskip · hhands.2)
  | _ => exact hnext hyields hhands

end Exec

/-!
# Carrying marks along
-/

/-- An instruction that goes on in its function leads from what the mark says to what the mark
behind it says. -/
theorem step_bears {n : Exec.Next} {g : FrameId} (hframe : m.frame = some g)
    (hbears : m.world.store.Bears base a.scopes g) (hshows : a.stage.Shows m.stack)
    (hallowed : op.Allowed u a) (hret : op ≠ .ret) (hrun : Exec.step op m = .ok n m')
    (hn : n.Onward) : m'.ip = m.ip ∧ ∃ g', m'.frame = some g' ∧
      m'.world.store.Bears base (op.after a).scopes g' ∧ (op.after a).stage.Shows m'.stack := by
  have hidle : ∀ {l : List (List Text)} {st : OperandStack}, (Mark.still l).stage.Shows st :=
    fun {_ _} => trivial
  have hworks : op.Local → m.Works (op.Owns m) m' := by
    intro hlocal
    have hstep := Exec.works_step hlocal m
    unfold Exec.Works at hstep
    rw [hrun] at hstep
    exact hstep.1
  -- instructions that neither open nor close a scope nor bind a name in one
  have hplain : op.Local → op.after a = .still a.scopes →
      m'.ip = m.ip ∧ ∃ g', m'.frame = some g' ∧
        m'.world.store.Bears base (op.after a).scopes g' ∧ (op.after a).stage.Shows m'.stack := by
    intro hlocal hafter
    rw [hafter]
    exact ⟨(hworks hlocal).ip, g, (hworks hlocal).frame.trans hframe,
      hbears.rewrites (hworks hlocal).store, hidle⟩
  have hcalling : Exec.Calling m (.ok n m') → False := by
    intro h
    cases h with
    | handed => exact hn
    | entered => exact hn
  cases op with
  | ret => exact absurd rfl hret
  | call => exact (hcalling (hrun ▸ Exec.calling_call m)).elim
  | dispatch name => exact (hcalling (hrun ▸ Exec.calling_dispatch name m)).elim
  | push v =>
    have hpush : Exec.step (.push v) m = .ok .next (m.withStack (m.stack.push v)) := rfl
    rw [hpush] at hrun
    cases hrun
    exact ⟨rfl, g, hframe, hbears, hshows.push v⟩
  | scopeEnter =>
    rw [Exec.step_scopeEnter] at hrun
    cases hrun
    obtain ⟨fr, hfr⟩ := hbears.frame
    have hnew := Store.newFrame_frame? m.world.store ⟨Table.empty, m.frame, .block⟩
    have hgrows := Store.Grows.newFrame m.world.store ⟨Table.empty, m.frame, .block⟩
    refine ⟨rfl, _, rfl, .block hnew hframe (Array.getElem?_eq_some_iff.mp hfr).1
      (fun t ht => absurd ht List.not_mem_nil) ?_, hidle⟩
    exact hbears.extends hgrows.toExtends fun _ _ => .newFrame _
  | scopeExit =>
    have hstep := Exec.closing_scopeExit m
    rw [hrun] at hstep
    cases hstep with
    | @left f fr hf hfr hkind =>
      obtain rfl : f = g := Option.some.inj (hf.symm.trans hframe)
      obtain ⟨scopes, stage⟩ := a
      cases stage with
      | marker | named => exact absurd hallowed id
      | idle =>
        cases hbears with
        | base => exact absurd rfl hallowed
        | block hfr' houter _ _ h =>
          rw [hfr] at hfr'
          cases hfr'
          exact ⟨rfl, _, houter, h, hidle⟩
  | buildFunc d =>
    have hstep := Exec.building_buildFunc d m
    rw [hrun] at hstep
    cases hstep with
    | @built m₁ params hm =>
      refine ⟨hm.ip, g, hm.frame.trans hframe, ?_, hidle⟩
      exact (hbears.rewrites hm.store).extends (.newClosure _ _) fun _ _ h => h
  | assign scope =>
    obtain ⟨scopes, stage⟩ := a
    cases scope with
    | outer | nearest => exact hplain trivial rfl
    | inner =>
      cases stage with
      | idle | marker => exact hplain trivial rfl
      | named t =>
        cases scopes with
        | nil => exact hplain trivial rfl
        | cons names l =>
          obtain ⟨_, m₁, hassign, hdone⟩ := Exec.bind_eq_ok hrun
          cases hdone
          have hm := hworks trivial
          obtain ⟨fr, hfr⟩ := hbears.frame
          exact ⟨hm.ip, g, hm.frame.trans hframe, (hbears.rewrites hm.store).bound
            (Exec.assign_binds hframe hfr hshows hassign), hidle⟩
  | _ => exact hplain trivial rfl

/-- In front of an instruction of an activation: names are used as agreed from there on, and the open
scopes inside the base and the stack are as the mark says. -/
structure Op.Upholds (u : Usage) (ty : Nat → Layout) (ops : Array Op) (stop : Nat → Prop) (base : FrameId)
    (s : Store) (st : OperandStack) (i : Nat) (a : Mark) (g : FrameId) : Prop where
  follows : Follows u ty ops stop i a
  bears : s.Bears base a.scopes g
  shows : a.stage.Shows st

/-- An instruction that goes on in its function does so in the same manner. -/
theorem Op.Upholds.step {stop : Nat → Prop} {n : Exec.Next} {g : FrameId} (hfit : Fit ops ty)
    (hsize : ops.size ≤ Slot.limit)
    (h : Upholds u ty ops stop base m.world.store m.stack i a g) (hstop : ¬ stop i)
    (hop : ops[i]? = some op) (hip : m.ip = i) (hframe : m.frame = some g) (hret : op ≠ .ret)
    (hrun : Exec.step op m = .ok n m') (hn : n.Onward) :
    ∃ (j : Nat) (g' : FrameId), n.target m'.ip = j ∧ m'.frame = some g' ∧
      Upholds u ty ops stop base m'.world.store m'.stack j (op.after a) g' := by
  obtain ⟨hallowed, hhands⟩ := h.follows.step hfit hstop hop
  obtain ⟨hip', g', hf', hbears', hshows'⟩ := step_bears hframe h.bears h.shows hallowed hret hrun hn
  obtain ⟨j, hj, hfollows⟩ := Exec.step_lands hhands hsize hret hrun hn (hip'.trans hip)
  exact ⟨j, g', hj, hf', hfollows, hbears', hshows'⟩

/-!
# A watch for names
-/

namespace Op

/-- Operations with layouts that they agree with. -/
structure Fitted where
  ops : Array Op
  ty : Nat → Layout
  fit : Fit ops ty

/-- An activation in front of an instruction uses names as agreed, up to where nothing more is asked. -/
def Going (u : Usage) (code : Fitted) (stop : Nat → Prop) (base : FrameId) (s : Store) (st : OperandStack)
    (ip : Int) (f : Option FrameId) : Prop :=
  ∃ (i : Nat) (a : Mark) (g : FrameId), ip = i ∧ f = some g ∧
    Upholds u code.ty code.ops stop base s st i a g

/-- An activation that waits behind an instruction will go on using names as agreed. -/
def Resting (u : Usage) (code : Fitted) (stop : Nat → Prop) (base : FrameId) (s : Store) (ip : Int)
    (f : Option FrameId) : Prop :=
  ∃ (i : Nat) (l : List (List Text)) (g : FrameId), ip = i ∧ f = some g ∧
    Follows u code.ty code.ops stop (i + 1) (.still l) ∧ s.Bears base l g

variable {code : Fitted} {stop : Nat → Prop} {st : OperandStack} {ip : Int} {fo : Option FrameId}

theorem Resting.extends (h : Resting u code stop base s ip fo) (hs : s.Extends s')
    (hbinds : ∀ g name, s.Binds g name → s'.Binds g name) : Resting u code stop base s' ip fo := by
  obtain ⟨i, l, g, hip, hf, hfollows, hbears⟩ := h
  exact ⟨i, l, g, hip, hf, hfollows, hbears.extends hs hbinds⟩

theorem Resting.resumes (h : Resting u code stop base s ip fo) (st : OperandStack) :
    Going u code stop base s st (ip + 1) fo := by
  obtain ⟨i, l, g, rfl, hf, hfollows, hbears⟩ := h
  exact ⟨i + 1, .still l, g, rfl, hf, hfollows, hbears, trivial⟩

theorem Going.calls (h : Going u code stop base m.world.store m.stack m.ip m.frame)
    (hstop : ∀ i : Nat, m.ip = i → ¬ stop i) (hop : code.ops[m.ip.toNat]? = some op) (hcalls : op.Calls)
    (hworks : m.Works (fun _ => False) m') :
    Resting u code stop base m'.world.store m'.ip m'.frame := by
  obtain ⟨i, a, g, hip, hf, h⟩ := h
  rw [hip, Int.toNat_natCast] at hop
  obtain ⟨-, hhands⟩ := h.follows.step code.fit (hstop i hip) hop
  refine ⟨i, a.scopes, g, hworks.ip.trans hip, hworks.frame.trans hf, ?_, h.bears.rewrites hworks.store⟩
  cases op with
  | call | dispatch => exact hhands
  | _ => exact absurd hcalls id

theorem Going.onward {n : Exec.Next} (hsize : code.ops.size ≤ Slot.limit)
    (h : Going u code stop base m.world.store m.stack m.ip m.frame)
    (hstop : ∀ i : Nat, m.ip = i → ¬ stop i) (hop : code.ops[m.ip.toNat]? = some op) (hret : op ≠ .ret)
    (hrun : Exec.step op m = .ok n m') (hn : n.Onward) :
    Going u code stop base m'.world.store m'.stack (n.target m'.ip) m'.frame := by
  obtain ⟨i, a, g, hip, hf, h⟩ := h
  rw [hip, Int.toNat_natCast] at hop
  obtain ⟨j, g', hj, hf', h'⟩ := h.step code.fit hsize (hstop i hip) hop hip hf hret hrun hn
  exact ⟨j, _, g', hj, hf', h'⟩

end Op

/-- A run, or the part of one above a floor, whose activations use names as agreed. -/
def Watch.using (u : Usage) (p : Program) (code : Op.Fitted) (m : Machine) : Watch where
  program := p
  ops := code.ops
  library := m.library
  depth := m.options.maxDepth
  root := some m.world.store.frames.size
  conduct := Store.Rewrites fun _ => False
  entry ip := ∃ i : Nat, ip = i ∧ Op.Follows u code.ty code.ops (fun _ => False) i .entry
  goes s st ip f b := Op.Going u code (fun _ => False) b s st ip f
  rests s ip f b := Op.Resting u code (fun _ => False) b s ip f
  low := 0
  floor := none
  stop _ := True

theorem Watch.using_sound {p : Program} {code : Op.Fitted} (hnatives : m.library.BindsNothing)
    (hsize : code.ops.size ≤ Slot.limit) : (Watch.using u p code m).Sound where
  natives := hnatives
  floored h := by cases h
  grows h := h.toGrows
  rests_conduct h hs := Op.Resting.extends h hs.toExtends hs.binds
  rests_store h hs hbinds := Op.Resting.extends h hs hbinds
  enters h hb _ _ := by
    obtain ⟨i, hip, hfollows⟩ := h
    exact ⟨i, .entry, _, hip, rfl, hfollows, .base hb, trivial⟩
  resumes h := Op.Resting.resumes h _
  calls _ hop hcalls h hworks := Op.Going.calls h (fun _ _ => id) hop hcalls hworks
  builds _ _ hop h := by
    obtain ⟨i, a, g, hip, hf, h⟩ := h
    rw [hip, Int.toNat_natCast] at hop
    exact ⟨i + 1, by rw [hip]; rfl, (h.follows.step code.fit id hop).2.1⟩
  onward _ hop hret h hrun hn := Op.Going.onward hsize h (fun _ _ => id) hop hret hrun hn

/-- Runs of a program whose operations use names as agreed do so all the time. -/
theorem Machine.Reaches.using {p : Program} {code : Op.Fitted} {state : State}
    (hops : Op.ofProgram p = ⟨code.ops, none⟩) (hsize : code.ops.size ≤ Slot.limit)
    (hsecure : Op.Secure u code.ops (fun _ => False) 0 .entry) (hnatives : m.library.BindsNothing)
    (hfresh : m.world.store.closures = #[]) (h : m.Reaches p state) :
    InStep (Watch.using u p code m) state := by
  have hw : (Watch.using u p code m).Sound := Watch.using_sound hnatives hsize
  have hfollows : Op.Follows u code.ty code.ops (fun _ => False) 0 .entry :=
    ⟨hsecure, by rw [code.fit.start]; rfl, by rw [code.fit.start]; exact List.not_mem_nil⟩
  have hops' : (Watch.using u p code m).ops = (Op.ofProgram p).ops := by
    rw [hops]
    rfl
  refine State.Leads.inStep hw rfl (Machine.start_inStep rfl rfl hops' rfl rfl rfl rfl ?_ ?_) h
  · intro i cl hcl
    have hcl : m.world.store.closures[i]? = some cl := hcl
    rw [hfresh] at hcl
    cases hcl
  · exact fun st stack b fr hb hkind => ⟨0, .entry, b, rfl, rfl, hfollows, .base hb, trivial⟩

end

/-!
# Activations that bind inside themselves

Where nothing is assigned beyond the current function, every activation binds names in frames of its own
only, and a call leaves all frames alone that were there before it.
-/

section
variable {base f : FrameId} {m : Machine} {op : Op} {a : Mark}

/-- A run, or the part of one above a floor, whose activations bind inside themselves. -/
def Watch.inward (p : Program) (code : Op.Fitted) (m : Machine) : Watch :=
  .using .inward p code m

/-- An allowed operation binds names in frames of the activation only. -/
theorem Op.Allowed.owns {g b h : FrameId} {n : Nat} (hallowed : op.Allowed .inward a)
    (hframe : m.frame = some g) (hbears : m.world.store.Bears base a.scopes g)
    (habove : m.world.store.Above g n b) (howns : op.Owns m h) : b ≤ h := by
  have hinside : (∃ f, m.frame = some f ∧ m.world.store.Inside f h) → b ≤ h := by
    rintro ⟨f, hf, hinside⟩
    obtain rfl : f = g := Option.some.inj (hf.symm.trans hframe)
    exact hinside.le habove
  obtain ⟨scopes, stage⟩ := a
  cases op with
  | assign scope =>
    have hscope : Usage.inward.scope scope = true := by
      cases stage with
      | idle => exact hallowed
      | marker => exact absurd hallowed id
      | named t => exact Usage.Binds.scope hallowed
    cases scope with
    | outer => cases hscope
    | inner => exact hinside howns
    | nearest => exact hinside howns
  | bump name up =>
    cases stage with
    | marker | named => exact absurd hallowed id
    | idle =>
      obtain ⟨names, l, rfl, hmem⟩ := hallowed
      obtain ⟨v, hlookup⟩ := howns
      rw [hframe] at hlookup
      -- the counter is bound where the lookup starts
      rw [(hbears.head name hmem).lookup_eq hlookup]
      exact habove.le
  | _ => exact absurd howns id

section
variable {p : Program} {code : Op.Fitted} {start : Machine} {low : Nat} {pending : List Pending} {tier : Tier}
  {s s' : State}

end
end
end ScriptEngine
