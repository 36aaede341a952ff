import ScriptEngine.Proofs.Machine.Coordination
import ScriptEngine.Proofs.Machine.Straight
import ScriptEngine.Proofs.Machine.Usage

/-!
# Stretches of an activation

An activation comes from one of its instructions to another one, with everything that it calls in
between, unless it is left before. Where the run of the whole program stays in order, so does the
part of it above the activation, and the activation is found again where the stretch ends.
-/

namespace ScriptEngine

/-- The activation in front of the pending work, whose call is the last one of `k`, is in front of an
instruction at one of the positions. -/
def State.Arrives (pending : List Pending) (k : Nat) (stop : Nat → Prop) (s : State) : Prop :=
  s.mode = .running ∧ s.pending = pending ∧ s.machine.calls.size = k ∧
    ∃ i : Nat, s.machine.ip = i ∧ stop i

/-- That activation comes from one state to the next one in which it is at one of the positions. -/
inductive State.Comes (pending : List Pending) (k : Nat) (stop : Nat → Prop) : State → State → Prop
  | here {s : State} (h : s.Arrives pending k stop) : Comes pending k stop s s
  | on {s s' s'' : State} (hnot : ¬ s.Arrives pending k stop) (hopen : ¬ s.Left pending k)
    (hnext : s.advance = .next s') (h : Comes pending k stop s' s'') : Comes pending k stop s s''

section
variable {pending : List Pending} {k : Nat} {stop : Nat → Prop} {s s' e e' : State}

theorem State.Arrives.not_left (h : s.Arrives pending k stop) : ¬ s.Left pending k := by
  rintro ⟨-, hless⟩
  have hlt := hless h.1
  rw [h.2.2.1] at hlt
  exact Nat.lt_irrefl _ hlt

namespace State.Comes

theorem arrives (h : Comes pending k stop s e) : e.Arrives pending k stop := by
  induction h with
  | here h => exact h
  | on _ _ _ _ ih => exact ih

theorem not_left (h : Comes pending k stop s e) : ¬ s.Left pending k := by
  cases h with
  | here h => exact h.not_left
  | on _ hopen => exact hopen

theorem next (h : Comes pending k stop s e) (hnot : ¬ s.Arrives pending k stop)
    (hnext : s.advance = .next s') : Comes pending k stop s' e := by
  cases h with
  | here h => exact absurd h hnot
  | on _ _ hnext' h =>
    cases hnext.symm.trans hnext'
    exact h

theorem unique (h : Comes pending k stop s e) (h' : Comes pending k stop s e') : e = e' := by
  induction h with
  | here h =>
    cases h' with
    | here => rfl
    | on hnot => exact absurd h hnot
  | on hnot _ hnext _ ih => exact ih (h'.next hnot hnext)

theorem leads (h : Comes pending k stop s e) : s.Leads e := by
  induction h with
  | here => exact .refl
  | on _ _ hnext _ ih => exact .cons hnext ih

/-- Code that is executed one instruction after the other belongs to the stretch. -/
theorem walks {i j : Nat} (h : State.Walks i j s s') (hcomes : Comes pending k stop s e)
    (hstop : ∀ x, i ≤ x → x < j → ¬ stop x) : Comes pending k stop s' e := by
  induction h with
  | refl => exact hcomes
  | @step i j m m₁ rest s₂ hip hnext _ hwalks ih =>
    have hnot : ¬ State.Arrives pending k stop ⟨m, rest, .running⟩ := by
      rintro ⟨-, -, -, x, hx, hstops⟩
      obtain rfl : x = i := Int.ofNat.inj (hx.symm.trans hip)
      exact hstop x (Nat.le_refl x) hwalks.le hstops
    exact ih (hcomes.next hnot hnext) fun x hle => hstop x (Nat.le_of_succ_le hle)

end State.Comes

/-!
# The part of a run above an activation
-/

section
variable {g g₀ : Ground} {b b₀ : FrameId} {inCall : Bool} {r : Regime} {tier : Tier} {w : Watch}

/-- Before its end a stretch does not leave the part of the run above the activation. -/
theorem State.Comes.not_leaves (hcomes : State.Comes pending k stop s' e) (hnot : ¬ s.Arrives pending k stop)
    (hopen : ¬ s.Left pending k) (hnext : s.advance = .next s') (hfloor : w.floor = some (pending, tier))
    (hk : tier.calls.size = k) (hstop : ∀ ip, w.stop ip → ∃ i : Nat, ip = i ∧ stop i) : ¬ w.Leaves s := by
  rintro ⟨pending', tier', hfloor', ⟨rfl, hover⟩, hends⟩
  obtain ⟨rfl, rfl⟩ := Prod.mk.inj (Option.some.inj (hfloor.symm.trans hfloor'))
  by_cases hmode : s.mode = .running
  · have hsize : s.machine.calls.size = k := by
      refine Nat.le_antisymm (hk ▸ hover hmode) (Nat.le_of_not_lt fun hlt => ?_)
      exact hopen ⟨rfl, fun _ => hlt⟩
    rcases hends hmode with hat | ⟨s₁, hnext₁, hleft⟩
    · exact hnot ⟨hmode, rfl, hsize, hstop _ hat⟩
    · cases hnext.symm.trans hnext₁
      rw [hk] at hleft
      exact hcomes.not_left hleft
  · exact hopen ⟨rfl, fun h => absurd h hmode⟩

theorem State.Comes.not_leaves_regime (hcomes : State.Comes pending k stop s' e)
    (hopen : ¬ s.Left pending k) (hnext : s.advance = .next s')
    (hfloor : r.floor = some (pending, .active g b inCall)) (hk : g.calls.size = k) : ¬ r.Leaves s := by
  rintro (⟨o, footing, hmode, hfloor'⟩ | ⟨g', b', inCall', hfloor', hmode, hle, hret⟩)
  · obtain ⟨hpending, -⟩ := Prod.mk.inj (Option.some.inj (hfloor.symm.trans hfloor'))
    exact hopen ⟨hpending.symm, fun h => by rw [hmode] at h; cases h⟩
  · obtain ⟨hpending, hactive⟩ := Prod.mk.inj (Option.some.inj (hfloor.symm.trans hfloor'))
    cases hactive
    have hsize : s.machine.calls.size = k := by
      refine Nat.le_antisymm (hk ▸ hle) (Nat.le_of_not_lt fun hlt => ?_)
      exact hopen ⟨hpending.symm, fun _ => hlt⟩
    obtain ⟨m, rest, mode⟩ := s
    obtain rfl : mode = .running := hmode
    obtain rfl : pending = rest := hpending
    have hleft := State.execute_left hret hnext
    rw [hsize] at hleft
    exact hcomes.not_left hleft

/-- How many calls are in progress on the footing. -/
def Footing.depth : Footing → Nat
  | active g _ _ => g.calls.size
  | waiting q => q.calls.size

/-- What stands above an activation has more pending work than it, or more calls in progress. -/
theorem Stands.floor_or_above {st : Store} {rest : List Pending} {footing : Footing}
    (h : Stands r st rest footing) (hfloor : r.floor = some (pending, .active g₀ b₀ inCall)) :
    (rest = pending ∧ footing = .active g₀ b₀ inCall) ∨
      (rest = pending ∧ g₀.calls.size < footing.depth) ∨
      (pending.length < rest.length ∧ g₀.calls.size ≤ footing.depth) := by
  induction h with
  | @floor rest footing h =>
    obtain ⟨rfl, rfl⟩ := Prod.mk.inj (Option.some.inj (hfloor.symm.trans h))
    exact Or.inl ⟨rfl, rfl⟩
  | top h =>
    rw [hfloor] at h
    cases h
  | @called rest g b b' inCall' a q i around _ hq _ _ _ _ ih =>
    have hsize : (q.ground around false).calls.size = g.calls.size + 1 := by
      rw [← hq.calls]
      exact Array.size_push ..
    refine Or.inr (ih.elim (fun h => Or.inl ⟨h.1, ?_⟩) (Or.imp (fun h => ⟨h.1, ?_⟩) fun h => ⟨h.1, ?_⟩))
    · cases h.2
      exact Nat.lt_of_lt_of_eq (Nat.lt_succ_self _) hsize.symm
    · exact Nat.lt_of_lt_of_eq (Nat.lt_succ_of_lt h.2) hsize.symm
    · exact Nat.le_trans (Nat.le_succ_of_le h.2) (Nat.le_of_eq hsize.symm)
  | @nested rest b q around _ _ ih =>
    have hmore : q.calls.size ≤ (q.ground around true).calls.size :=
      Nat.le_trans (Nat.le_succ _) (Nat.le_of_eq (Array.size_push ..).symm)
    refine Or.inr (Or.inr ?_)
    rcases ih with ⟨-, h⟩ | ⟨rfl, h⟩ | ⟨hlt, h⟩
    · cases h
    · exact ⟨Nat.lt_succ_self _, Nat.le_trans (Nat.le_of_lt h) hmore⟩
    · exact ⟨Nat.lt_succ_of_lt hlt, Nat.le_trans h hmore⟩
  | @instruction rest g b inCall' a q i _ hq _ _ _ ih =>
    have hsize : q.calls.size = g.calls.size := congrArg Array.size hq.calls
    refine Or.inr (Or.inr ?_)
    rcases ih with ⟨rfl, h⟩ | ⟨rfl, h⟩ | ⟨hlt, h⟩
    · cases h
      exact ⟨Nat.lt_succ_self _, Nat.le_of_eq hsize.symm⟩
    · exact ⟨Nat.lt_succ_self _, Nat.le_of_lt (Nat.lt_of_lt_of_eq h hsize.symm)⟩
    · exact ⟨Nat.lt_succ_of_lt hlt, Nat.le_trans h (Nat.le_of_eq hsize.symm)⟩
  | construct _ ih | convert _ ih | native _ _ _ _ ih =>
    refine Or.inr (Or.inr ?_)
    rcases ih with ⟨-, h⟩ | ⟨rfl, h⟩ | ⟨hlt, h⟩
    · cases h
    · exact ⟨Nat.lt_succ_self _, Nat.le_of_lt h⟩
    · exact ⟨Nat.lt_succ_of_lt hlt, h⟩

/-- The activation itself is the one with its pending work and its calls. -/
theorem Stands.eq_floor {st : Store} {inCall' : Bool}
    (hfloor : r.floor = some (pending, .active g₀ b₀ inCall)) (h : Stands r st pending (.active g b inCall'))
    (hk : g.calls.size = g₀.calls.size) : g = g₀ ∧ b = b₀ ∧ inCall' = inCall := by
  rcases h.floor_or_above hfloor with ⟨-, h⟩ | ⟨-, h⟩ | ⟨h, -⟩
  · cases h
    exact ⟨rfl, rfl, rfl⟩
  · exact absurd hk (Nat.ne_of_gt h)
  · exact absurd h (Nat.lt_irrefl _)

end
end

/-!
# Bindings that instructions keep

An instruction of an activation that uses names as agreed keeps what frames bind names to that are not
its own to bind: it assigns such a name in its innermost scope only, and counts a counter there.
-/

/-- The engine as the computation leaves it. -/
def Exec.behind {α : Type} (x : Exec α) (m : Machine) : Machine :=
  match x m with
  | .ok _ m' => m'
  | .error _ m' => m'

/-- An activation whose own scopes lie inside the base keeps what the frame binds the name to: the name
is not for trees, and the frame lies outside, or nothing is bound that loops do not bind themselves. -/
def Usage.Guards (u : Usage) (base : FrameId) (s : Store) (f : FrameId) (t : Text) : Prop :=
  u.name t = false ∧ (f ≤ base ∨ t ∉ Compiler.loopNames ∧ s.var f t = none)

/-- The store with the name bound in the scope, seen from a frame. -/
def Store.bindIn (s : Store) (scope : Scope) (f : FrameId) (name : Text) (v : Value) : Store :=
  match scope with
  | .inner => s.define f name v
  | .nearest => s.setNearest f name v
  | .outer => s.setOuter f name v

section
variable {u : Usage} {s : Store} {base f g : FrameId} {m m' : Machine} {op : Op} {a : Mark} {t : Text}
  {v : Value} {rest : List Value}

theorem Store.bindIn_eq (s : Store) (scope : Scope) (g : FrameId) (t : Text) (v : Value) :
    ∃ owner, s.bindIn scope g t v = s.define owner t v ∧
      (scope = .inner ∨ scope = .nearest ∧ s.Binds g t → owner = g) := by
  cases scope with
  | inner => exact ⟨g, rfl, fun _ => rfl⟩
  | nearest =>
    show ∃ owner, s.setNearest g t v = _ ∧ _
    unfold Store.setNearest
    cases hlookup : s.lookup (some g) t true with
    | none => exact ⟨g, rfl, fun _ => rfl⟩
    | some found =>
      refine ⟨found.2, rfl, fun h => ?_⟩
      obtain ⟨w, hw⟩ := (h.resolve_left fun h => by cases h).2.var
      rw [Store.lookup_of_var hw] at hlookup
      cases hlookup
      rfl
  | outer =>
    have hscope : ¬ (Scope.outer = .inner ∨ Scope.outer = .nearest ∧ s.Binds g t) := fun h =>
      h.elim (fun h => by cases h) fun h => by cases h.1
    show ∃ owner, s.setOuter g t v = _ ∧ _
    unfold Store.setOuter
    split
    · exact ⟨g, rfl, fun h => absurd h hscope⟩
    split
    · exact ⟨_, rfl, fun h => absurd h hscope⟩
    split
    · exact ⟨_, rfl, fun h => absurd h hscope⟩
    · exact ⟨_, rfl, fun h => absurd h hscope⟩

namespace Exec

variable {α : Type} {x : Exec α}

theorem behind_of_ok {a : α} (h : x m = .ok a m') : behind x m = m' := by
  unfold behind
  rw [h]

theorem behind_of_error {e : Stop} (h : x m = .error e m') : behind x m = m' := by
  unfold behind
  rw [h]

theorem Works.behind {own : FrameId → Prop} {P : α → Prop} (h : Works own x m P) :
    m.Works own (behind x m) := by
  unfold Works at h
  unfold Exec.behind
  cases hrun : x m with
  | ok a m' =>
    rw [hrun] at h
    exact h.1
  | error e m' =>
    rw [hrun] at h
    exact h

/-- Pushing a result leaves the store. -/
theorem behind_result (x : Exec Value) (m : Machine) :
    (behind (result x) m).world.store = (behind x m).world.store := by
  unfold result
  cases hrun : x m with
  | ok v m' =>
    rw [behind_of_ok hrun]
    unfold behind
    rw [bind_of_ok hrun]
    rfl
  | error e m' =>
    rw [behind_of_error hrun]
    unfold behind
    rw [bind_of_error hrun]

theorem bindName_of_frame (hframe : m.frame = some g) (scope : Scope) (t : Text) (v : Value) :
    bindName scope t v m = .ok () (m.withStore (m.world.store.bindIn scope g t v)) := by
  show (reads (·.frame) >>= _) m = _
  rw [bind_of_ok (show reads (·.frame) m = .ok (some g) m by rw [← hframe]; rfl)]
  cases scope <;> rfl

/-- A name is bound in one frame, which is the current one if the scope is the innermost, or if the
nearest binding is there. -/
theorem place_name (hframe : m.frame = some g) (scope : Scope) (t : Text) (v : Value) :
    ∃ (s : Store) (owner : FrameId) (v' : Value), (∀ f, s.frame? f = m.world.store.frame? f) ∧
      (behind (place scope (.text t) .empty v) m).world.store = s.define owner t v' ∧
      (scope = .inner ∨ scope = .nearest ∧ m.world.store.Binds g t → owner = g) := by
  obtain ⟨s, hs⟩ : ∃ s, s = (m.world.store.copy v).2.nameValue (m.world.store.copy v).1 t := ⟨_, rfl⟩
  have hframes : ∀ f, s.frame? f = m.world.store.frame? f := by
    intro f
    rw [hs, Store.frame?_nameValue]
    exact congrArg (·[f]?) (copy_frames m.world.store v)
  have hrun : place scope (.text t) .empty v m = .ok (m.world.store.copy v).1
      (m.withStore (s.bindIn scope g t (m.world.store.copy v).1)) := by
    unfold place
    rw [bind_of_ok (copy_eq m v)]
    show (nameClosure (m.world.store.copy v).1 t >>= fun _ =>
      bindName scope t (m.world.store.copy v).1 >>= fun _ => pure (m.world.store.copy v).1) _ = _
    rw [bind_of_ok (nameClosure_eq _ t _)]
    have hbound := bindName_of_frame (m := m.withStore s) hframe scope t (m.world.store.copy v).1
    rw [hs] at hbound ⊢
    exact bind_of_ok hbound
  obtain ⟨owner, hstore, howner⟩ := s.bindIn_eq scope g t (m.world.store.copy v).1
  refine ⟨s, owner, _, hframes, (congrArg (·.world.store) (behind_of_ok hrun)).trans hstore, fun h => ?_⟩
  refine howner (h.imp_right (And.imp_right fun hbinds => ?_))
  obtain ⟨fr, hfr, hbound⟩ := hbinds
  exact ⟨fr, (hframes g).trans hfr, hbound⟩

/-- Writing into an object binds nothing. -/
theorem quiet_place {scope : Scope} {name target : Value} (h : target ≠ .empty) (v : Value) :
    Quiet (place scope name target v) := by
  refine (quiet_copy v).bind fun v' => ?_
  have hmember : Quiet (setMember target name v' >>= fun _ => pure v') :=
    (quiet_setMember target name v').bind fun _ => quiet_pure v'
  cases target with
  | empty => exact absurd rfl h
  | _ => exact hmember

/-- A counter is counted where it is found. -/
theorem behind_bump (name : Text) (up : Bool) (m : Machine) :
    (behind (step (.bump name up)) m).world.store = m.world.store ∨
      ∃ v v' owner, m.world.store.lookup m.frame name false = some (v, owner) ∧
        (behind (step (.bump name up)) m).world.store = m.world.store.define owner name v' := by
  have hreads : reads (fun m => m.world.store.lookup m.frame name false) m =
      .ok (m.world.store.lookup m.frame name false) m := rfl
  cases hlookup : m.world.store.lookup m.frame name false with
  | none =>
    have hunbound : step (.bump name up) m = .error (.fault (.raised .unbound (unbound name))) m := by
      show (bump name up >>= _) m = _
      refine bind_of_error ?_
      unfold bump
      rw [bind_of_ok hreads, hlookup]
      rfl
    exact Or.inl (congrArg (·.world.store) (behind_of_error hunbound))
  | some found =>
    obtain ⟨v, owner⟩ := found
    have hother : (∀ y, v ≠ .number y) → (behind (step (.bump name up)) m).world.store = m.world.store := by
      intro hv
      have hrefused : step (.bump name up) m =
          .error (.fault (.raised .invalidOperand ((if up then "cannot increment " else "cannot decrement ") ++
            m.world.store.typeName v))) m := by
        show (bump name up >>= _) m = _
        refine bind_of_error ?_
        unfold bump
        rw [bind_of_ok hreads, hlookup]
        cases v with
        | number y => exact absurd rfl (hv y)
        | _ => rfl
      exact congrArg (·.world.store) (behind_of_error hrefused)
    cases v with
    | number y =>
      have hcounts : step (.bump name up) m = .ok .next (m.withStore
          (m.world.store.define owner name (.number (if up then y + 1 else y - 1)))) := by
        show (bump name up >>= _) m = _
        refine bind_of_ok (a := ()) ?_
        unfold bump
        rw [bind_of_ok hreads, hlookup]
        rfl
      exact Or.inr ⟨_, _, owner, rfl, congrArg (·.world.store) (behind_of_ok hcounts)⟩
    | _ => exact Or.inl (hother fun _ h => by cases h)

end Exec

/-!
# What is guarded is kept
-/

theorem Machine.Stacks.top? (h : m.Stacks (v :: rest)) : m.stack.top? = some v :=
  (Exec.pop_ok (Exec.pop_eq h)).1

/-- An assignment keeps what is guarded. -/
theorem Op.Allowed.assign_keeps {scope : Scope} {b : Layout} {o : Onward} {l : List Value}
    {known : NativeInfo → Prop} (hallowed : (Op.assign scope).Allowed u a) (hframe : m.frame = some g)
    (hbears : m.world.store.Bears base a.scopes g) (hshows : a.stage.Shows m.stack)
    (hagrees : a.stage.Agrees b.slots) (hflow : (Op.assign scope).Flow b o) (hstacks : m.Stacks (l ++ rest))
    (hfill : Slot.Fill True known m.world.store b.slots l) (hguards : u.Guards base m.world.store f t) :
    (Exec.behind (Exec.step (.assign scope)) m).world.store.var f t = m.world.store.var f t := by
  obtain ⟨hname, hguards⟩ := hguards
  cases hflow with
  | assignName =>
    obtain ⟨_, _, rfl, ⟨t', rfl⟩, hfill₁⟩ := Slot.Fill.cons hfill
    obtain ⟨_, _, rfl, rfl, hfill₂⟩ := Slot.Fill.cons hfill₁
    obtain ⟨value, l, rfl, -, -⟩ := Slot.Fill.cons hfill₂
    obtain ⟨s, owner, v', hframes, hstore, howner⟩ :=
      Exec.place_name (m := m.leaving (l ++ rest)) hframe scope t' value
    rw [Exec.behind, Exec.step_assign hstacks]
    show (Exec.behind (Exec.result (Exec.place scope (.text t') .empty value))
      (m.leaving (l ++ rest))).world.store.var f t = _
    rw [Exec.behind_result, hstore]
    refine (Store.var_define_of_ne s v' ?_).trans (Store.var_congr (hframes f) t)
    by_cases ht : t' = t
    · refine Or.inl ?_
      subst ht
      obtain ⟨scopes, stage⟩ := a
      cases stage with
      | idle => exact absurd (List.mem_cons_of_mem _ List.mem_cons_self) hagrees
      | marker => exact absurd hallowed id
      | named t₀ =>
        obtain ⟨ht₀, -⟩ := hshows _ hstacks.top?
        cases ht₀
        obtain ⟨-, hyes | ⟨hloop, names, l', rfl, hscope⟩⟩ := hallowed
        · rw [hname] at hyes
          cases hyes
        · have hle : f ≤ base := hguards.resolve_right fun h => h.1 hloop
          have hg : owner = g := howner (hscope.imp_right (And.imp_right fun hmem => hbears.head _ hmem))
          rw [hg]
          exact Nat.ne_of_gt (Nat.lt_of_le_of_lt hle hbears.base_lt)
    · exact Or.inr ht
  | assignMember =>
    obtain ⟨name, _, rfl, -, hfill₁⟩ := Slot.Fill.cons hfill
    obtain ⟨target, _, rfl, htarget, hfill₂⟩ := Slot.Fill.cons hfill₁
    obtain ⟨value, l, rfl, -, -⟩ := Slot.Fill.cons hfill₂
    have hclean : target ≠ .empty := by
      rintro rfl
      exact htarget trivial
    rw [Exec.behind, Exec.step_assign hstacks]
    show (Exec.behind (Exec.result (Exec.place scope name target value))
      (m.leaving (l ++ rest))).world.store.var f t = _
    rw [Exec.behind_result]
    have hplace : Exec.Quiet (Exec.place scope name target value) := Exec.quiet_place hclean value
    have hquiet := Exec.Works.behind (hplace (m.leaving (l ++ rest)))
    exact Store.var_congr (hquiet.store.others f id) t

/-- Counting keeps what is guarded. -/
theorem Op.Allowed.bump_keeps {name : Text} {up : Bool} (hallowed : (Op.bump name up).Allowed u a)
    (hframe : m.frame = some g) (hbears : m.world.store.Bears base a.scopes g)
    (hguards : u.Guards base m.world.store f t) :
    (Exec.behind (Exec.step (.bump name up)) m).world.store.var f t = m.world.store.var f t := by
  obtain ⟨-, hguards⟩ := hguards
  rcases Exec.behind_bump name up m with hstore | ⟨v, v', owner, hlookup, hstore⟩
  · rw [hstore]
  · rw [hstore]
    refine Store.var_define_of_ne _ v' ?_
    by_cases ht : name = t
    · refine Or.inl ?_
      subst ht
      obtain ⟨scopes, stage⟩ := a
      cases stage with
      | marker | named => exact absurd hallowed id
      | idle =>
        obtain ⟨names, l, rfl, hmem⟩ := hallowed
        rw [hframe] at hlookup
        have hbinds := hbears.head name hmem
        rw [hbinds.lookup_eq hlookup]
        rintro rfl
        rcases hguards with hle | ⟨-, hnone⟩
        · exact Nat.not_le_of_lt hbears.base_lt hle
        · obtain ⟨w, hw⟩ := hbinds.var
          rw [hnone] at hw
          cases hw
    · exact Or.inr ht

end

/-!
# Stretches keep bindings

What is guarded outlives a stretch of an activation, whatever it calls: work that waits and natives bind
nothing, other activations bind beyond themselves what is for trees, and the activation itself binds
the rest inside its own scopes only.
-/

/-- What a part of a run keeps that begins with an activation whose own scopes lie inside the base: frames
and their links, bindings that are not for trees outside, and among the older frames that a name which
loops do not bind is bound nowhere. -/
structure Usage.Keeps (u : Usage) (base : FrameId) (low : Nat) (s s' : Store) : Prop where
  frames : s.Extends s'
  vars : ∀ f t, f < low → u.Guards base s f t → s'.var f t = s.var f t

/-- The part of a run above an activation with its boundary frame, in which that activation uses names as
agreed up to where nothing more is asked, its own scopes inside the base. -/
def Watch.stretch (u : Usage) (p : Program) (code : Op.Fitted) (m : Machine) (pending : List Pending)
    (g : Base) (b base : FrameId) (low : Nat) (stop : Nat → Prop) : Watch :=
  { Watch.using u p code m with
    goes := fun s st ip f c => Op.Going u code (fun _ => False) c s st ip f ∧
      (c < low → Op.Going u code stop base s st ip f)
    rests := fun s ip f c => Op.Resting u code (fun _ => False) c s ip f ∧
      (c < low → Op.Resting u code stop base s ip f)
    low := low
    floor := some (pending, .active g b)
    stop := fun ip => ∃ i : Nat, ip = i ∧ stop i }

section
variable {u : Usage} {p : Program} {code : Op.Fitted} {m m' : Machine} {pending : List Pending} {g : Base}
  {b base : FrameId} {low : Nat} {stop : Nat → Prop} {s s' : State}

theorem Usage.Keeps.refl (s : Store) : u.Keeps base low s s :=
  ⟨(Store.Grows.refl s).toExtends, fun _ _ _ _ => rfl⟩

theorem Usage.Keeps.trans {s s' s'' : Store} (h : u.Keeps base low s s') (h' : u.Keeps base low s' s'') :
    u.Keeps base low s s'' := by
  refine ⟨h.frames.trans h'.frames, fun f t hf hguards => ?_⟩
  have hvar := h.vars f t hf hguards
  refine (h'.vars f t hf ⟨hguards.1, ?_⟩).trans hvar
  exact hguards.2.imp_right fun ⟨ht, hnone⟩ => ⟨ht, hvar.trans hnone⟩

theorem Watch.stretch_sound (hnatives : m.library.BindsNothing) (hsize : code.ops.size ≤ Slot.limit) :
    (Watch.stretch u p code m pending g b base low stop).Sound := by
  have hwhole : (Watch.using u p code m).Sound := Watch.using_sound hnatives hsize
  have hcovers : ∀ {c ip}, (Watch.stretch u p code m pending g b base low stop).Covers c ip → c < low →
      ∀ i : Nat, ip = i → ¬ stop i := fun h hc i hip hstop =>
    ((h fun h => by cases h).resolve_left (Nat.not_le_of_lt hc)) ⟨i, hip, hstop⟩
  exact {
    natives := hnatives
    floored := fun h => by cases h
    grows := fun h => h.toGrows
    rests_conduct := fun h hs =>
      ⟨h.1.extends hs.toExtends hs.binds, fun hc => (h.2 hc).extends hs.toExtends hs.binds⟩
    rests_store := fun h hs hbinds => ⟨h.1.extends hs hbinds, fun hc => (h.2 hc).extends hs hbinds⟩
    enters := fun hentry hb hkind hlow =>
      ⟨hwhole.enters hentry hb hkind (Nat.zero_le _), fun hc => absurd hlow (Nat.not_le_of_lt hc)⟩
    resumes := fun h => ⟨h.1.resumes _, fun hc => (h.2 hc).resumes _⟩
    calls := fun hc hop hcalls h hworks => ⟨h.1.calls (fun _ _ => id) hop hcalls hworks,
      fun hlow => (h.2 hlow).calls (hcovers hc hlow) hop hcalls hworks⟩
    builds := fun _ hip hop h => hwhole.builds (Watch.covers_of_none rfl _ _) hip hop h.1
    onward := fun hc hop hret h hrun hn => ⟨h.1.onward hsize (fun _ _ => id) hop hret hrun hn,
      fun hlow => (h.2 hlow).onward hsize (hcovers hc hlow) hop hret hrun hn⟩ }

/-- An executed instruction leaves the store behind as its computation does, whether it goes on or
fails. -/
theorem State.after_store {x : Exec Exec.Next} (h : State.after pending (x m) = .next s') :
    s'.machine.world.store = (Exec.behind x m).world.store := by
  unfold Exec.behind
  cases hrun : x m with
  | ok n m' =>
    rw [hrun] at h
    cases n <;> cases h <;> rfl
  | error e m' =>
    rw [hrun] at h
    cases e with
    | crash message => cases h
    | fault f =>
      cases h
      rfl

/-- The runs of the program on the engine are in order, natives bind nothing, and names are used as
agreed. -/
structure Regime.Governs (r : Regime) (u : Usage) (p : Program) (code : Op.Fitted) (m : Machine) : Prop where
  valid : r.Valid
  whole : r.floor = none
  tidy : r.tidy = True
  ops : r.ops = code.ops
  ty : r.ty = code.ty
  natives : m.library.BindsNothing
  order : ∀ {s}, m.Reaches p s → InOrder r s
  usage : ∀ {s}, m.Reaches p s → InStep (Watch.using u p code m) s

theorem Regime.Governs.limit {r : Regime} (h : r.Governs u p code m) : code.ops.size ≤ Slot.limit :=
  h.ops ▸ h.valid.limit

/-- Control is where the layouts say it can be. -/
theorem Regime.Governs.live {r : Regime} {m₁ : Machine} {i : Nat} (hr : r.Governs u p code m)
    (hreaches : m.Reaches p ⟨m₁, pending, .running⟩) (hip : m₁.ip = i) : (code.ty i).live = true := by
  have horder := hr.order hreaches
  cases horder with
  | @running _ _ g b inCall i' hm hs hq hip' hi =>
    obtain rfl : i' = i := Int.ofNat.inj (hip'.symm.trans hip)
    have hlive := hq.live
    rw [hr.ty] at hlive
    exact hlive

/-- In front of an instruction of the part of the run, names are used as agreed inside a base that no
guarded frame lies beyond. -/
theorem InStep.stretch_going {rest : List Pending} {m₁ : Machine}
    (hs : InStep (Watch.stretch u p code m pending g b base low stop) ⟨m₁, rest, .running⟩)
    (hstay : ¬ (Watch.stretch u p code m pending g b base low stop).Leaves ⟨m₁, rest, .running⟩) :
    ∃ B stop', Op.Going u code stop' B m₁.world.store m₁.stack m₁.ip m₁.frame ∧
      (∀ i : Nat, m₁.ip = i → ¬ stop' i) ∧ (∀ i, stop' i → stop i) ∧ (B = base ∨ low ≤ B) := by
  cases hs with
  | @running _ _ g' c hm hs hq hgoes =>
    rcases Nat.lt_or_ge c low with hc | hc
    · refine ⟨base, stop, hgoes.2 hc, fun i hip hstop => hstay ?_, fun _ h => h, Or.inl rfl⟩
      have hfloor : (Watch.stretch u p code m pending g b base low stop).floor = some (rest, .active g' c) := by
        by_contra hne
        exact Nat.not_le_of_lt hc (hs.low_le (fun h => by cases h) hne)
      refine ⟨rest, _, hfloor, ⟨rfl, fun _ => Nat.le_of_eq (congrArg Array.size hq.calls)⟩, fun _ => Or.inl ?_⟩
      exact ⟨i, hip, hstop⟩
    · exact ⟨c, fun _ => False, hgoes.1, fun _ _ => id, fun _ => False.elim, Or.inr hc⟩

/-- What is guarded outside one base is guarded outside a base that lies beyond. -/
theorem Usage.Guards.beyond {B : FrameId} {st : Store} {f : FrameId} {t : Text} (h : u.Guards base st f t)
    (hf : f < low) (hB : B = base ∨ low ≤ B) : u.Guards B st f t := by
  rcases hB with rfl | hB
  · exact h
  · exact ⟨h.1, Or.inl (Nat.le_of_lt (Nat.lt_of_lt_of_le hf hB))⟩

/-- An instruction keeps what is guarded. -/
theorem InStep.execute_keeps {r : Regime} {rest : List Pending} {m₁ : Machine} {f : FrameId} {t : Text}
    (hr : r.Governs u p code m) (horder : InOrder r ⟨m₁, rest, .running⟩)
    (hs : InStep (Watch.stretch u p code m pending g b base low stop) ⟨m₁, rest, .running⟩)
    (hstay : ¬ (Watch.stretch u p code m pending g b base low stop).Leaves ⟨m₁, rest, .running⟩)
    (hnext : State.execute m₁ rest = .next s') (howns : State.Owns ⟨m₁, rest, .running⟩ f) (hf : f < low)
    (hguards : u.Guards base m₁.world.store f t) :
    s'.machine.world.store.var f t = m₁.world.store.var f t := by
  obtain ⟨B, stop', ⟨i, a, f', hip, hframe, hupholds⟩, hstop, -, hB⟩ := hs.stretch_going hstay
  replace hguards := hguards.beyond hf hB
  obtain ⟨-, op, hop, howns⟩ := howns
  rcases State.execute_cases m₁ rest with ⟨_, _, h⟩ | ⟨h, -⟩ | ⟨fault, h⟩ | ⟨op', j, -, hop', h⟩
  · cases h.symm.trans hnext
  · cases h.symm.trans hnext
    rfl
  · cases h.symm.trans hnext
    rfl
  · obtain rfl : op = op' := Option.some.inj (hop.symm.trans hop')
    rw [State.after_store (h.symm.trans hnext)]
    have hcode : code.ops[i]? = some op := by
      rw [← show m₁.ops = code.ops from hs.keeps.ops, ← hop', hip, Int.toNat_natCast]
    have hallowed := (hupholds.follows.step code.fit (hstop i hip) hcode).1
    cases op with
    | assign scope =>
      cases horder with
      | @running _ _ g₀ b₀ inCall i' hm _ hq hip' _ =>
        obtain rfl : i' = i := Int.ofNat.inj (hip'.symm.trans hip)
        obtain ⟨l, hstack, hfill⟩ := hq.stack
        obtain ⟨o, hflow, -⟩ := hr.valid.fit.flows i' _ (hr.ops ▸ hcode) hq.live
        rw [hr.tidy] at hfill
        exact hallowed.assign_keeps (m := m₁.withJournal j) hframe hupholds.bears hupholds.shows
          (hr.ty ▸ hupholds.follows.agrees) hflow ⟨hm.backed, hstack⟩ hfill hguards
    | bump name up => exact hallowed.bump_keeps (m := m₁.withJournal j) hframe hupholds.bears hguards
    | _ => exact absurd howns id

/-- A transition keeps what is guarded. -/
theorem InStep.turn_keeps {r : Regime} (hr : r.Governs u p code m) (horder : InOrder r s)
    (hs : InStep (Watch.stretch u p code m pending g b base low stop) s)
    (hstay : ¬ (Watch.stretch u p code m pending g b base low stop).Leaves s)
    (hnext : s.advance = .next s') : u.Keeps base low s.machine.world.store s'.machine.world.store := by
  have hw : (Watch.stretch u p code m pending g b base low stop).Sound :=
    Watch.stretch_sound hr.natives hr.limit
  have hturn := hs.turns hw hstay
  rw [hnext] at hturn
  have hturn : s.Turn (Watch.stretch u p code m pending g b base low stop) s' := hturn
  refine ⟨hturn.extends hw, fun f t hf hguards => ?_⟩
  have hlt : f < s.machine.world.store.frames.size := Nat.lt_of_lt_of_le hf hs.keeps.low
  by_cases howns : s.Owns f
  · obtain ⟨m₁, rest, mode⟩ := s
    obtain rfl : mode = .running := howns.1
    exact hs.execute_keeps hr horder hstay hnext howns hf hguards
  refine Store.var_congr ?_ t
  cases hturn with
  | begins h => exact h.frame?_entered hlt
  | works hstore => exact hstore.others f howns
  | opens hstore =>
    rw [hstore]
    exact Store.frame?_newFrame_of_lt _ hlt
  | builds h hstore =>
    rw [hstore]
    exact h.others f howns
  | natives hstore => exact hstore.others f id

/-!
# From the beginning of a stretch to its end
-/

/-- Scopes inside the base add to its height above the boundary. -/
theorem Store.Bears.height {st : Store} {l : List (List Text)} {f c : FrameId} {n n' : Nat}
    (h : st.Bears base l f) (habove : st.Above f n' c) (hbase : st.Above base n c) :
    n' = n + l.length := by
  induction h generalizing n' with
  | base => exact (habove.unique hbase).1
  | block hf houter hlt _ h ih =>
    cases habove with
    | here => exact absurd (Nat.lt_of_le_of_lt h.base_le hlt) (Nat.not_lt_of_le hbase.le)
    | block hf' _ houter' _ habove =>
      rw [hf] at hf'
      cases hf'
      rw [houter] at houter'
      cases houter'
      rw [ih habove, List.length_cons, Nat.add_assoc]

/-- The discipline of the part of a run above an activation. -/
def Regime.above (r : Regime) (pending : List Pending) (g : Ground) (b : FrameId) (inCall : Bool) : Regime :=
  { r with floor := some (pending, .active g b inCall) }

theorem Regime.Valid.above {r : Regime} (h : r.Valid) (g : Ground) (inCall : Bool) :
    (r.above pending g b inCall).Valid :=
  ⟨h.fit, h.size, h.limit, h.calls, h.proper⟩

namespace State.Comes

variable {r : Regime} {k : Nat} {e : State}

/-- A stretch stays in the part of the run above its activation, and keeps what is guarded. -/
theorem stretches (hr : r.Governs u p code m) (hk : g.calls.size = k) (hreaches : m.Reaches p s)
    (hs : InStep (Watch.stretch u p code m pending g b base low stop) s) (h : s.Comes pending k stop e) :
    m.Reaches p e ∧ InStep (Watch.stretch u p code m pending g b base low stop) e ∧
      u.Keeps base low s.machine.world.store e.machine.world.store := by
  induction h with
  | here => exact ⟨hreaches, hs, .refl _⟩
  | on hnot hopen hnext h ih =>
    have hstay := h.not_leaves hnot hopen hnext (w := Watch.stretch u p code m pending g b base low stop)
      rfl hk fun _ h => h
    have hnext' := advance_inStep (Watch.stretch_sound hr.natives hr.limit) hs hstay
    rw [hnext] at hnext'
    obtain ⟨hreaches', hs', hkeeps⟩ := ih (hreaches.step hnext) hnext'
    exact ⟨hreaches', hs', (hs.turn_keeps hr (hr.order hreaches) hstay hnext).trans hkeeps⟩

theorem inOrder {g : Ground} {inCall : Bool} (hr : r.Valid)
    (hfloor : r.floor = some (pending, .active g b inCall)) (hk : g.calls.size = k) (hs : InOrder r s)
    (h : s.Comes pending k stop e) : InOrder r e := by
  induction h with
  | here => exact hs
  | on _ hopen hnext h ih =>
    have hnext' := advance_inOrder hr hs (h.not_leaves_regime hopen hnext hfloor hk)
    rw [hnext] at hnext'
    exact ih hnext'

end State.Comes

/-- What an activation that has come from position `i` to position `j` finds again. -/
structure Machine.Resumes (u : Usage) (code : Op.Fitted) (i j : Nat) (f : FrameId) (m m' : Machine) : Prop where
  keeps : u.Keeps f m.world.store.frames.size m.world.store m'.world.store
  stack : ∃ below l l' known, m.Stacks (l ++ below) ∧ l.length = (code.ty i).slots.length ∧
    m'.Stacks (l' ++ below) ∧ Slot.Fill True known m'.world.store (code.ty j).slots l'
  frame : (code.ty j).scopes = (code.ty i).scopes → m'.frame = some f
  natives : m'.natives = m.natives
  live : (code.ty j).live = true

/-- Where an activation is secure a stretch of it begins. -/
theorem InStep.stretch_begins {m₁ : Machine} {f : FrameId} {i : Nat}
    (h : InStep (Watch.using u p code m) ⟨m₁, pending, .running⟩) (hframe : m₁.frame = some f) (hip : m₁.ip = i)
    (hlive : (code.ty i).live = true) (hslots : Slot.marker ∉ (code.ty i).slots)
    (hsecure : Op.Secure u code.ops stop i (.still [])) :
    ∃ g n b, g.calls.size = m₁.calls.size ∧ m₁.world.store.Above f n b ∧
      InStep (Watch.stretch u p code m pending g b f m₁.world.store.frames.size stop) ⟨m₁, pending, .running⟩ := by
  cases h with
  | @running _ _ g b hm hs hq hgoes =>
  obtain ⟨f₀, n, hf₀, habove⟩ := hq.frame
  obtain rfl : f₀ = f := Option.some.inj (hf₀.symm.trans hframe)
  obtain ⟨fr, hfr⟩ := habove.frame
  exact ⟨g, n, b, (congrArg Array.size hq.calls).symm, habove,
    .running ⟨hm.program, hm.ops, hm.library, hm.depth, hm.root, hm.entries, Nat.le_refl _⟩ (.floor rfl) hq
      ⟨hgoes, fun _ => ⟨i, .still [], f₀, hip, hframe, ⟨hsecure, hlive, hslots⟩, .base hfr, trivial⟩⟩⟩

/-- Where a stretch ends the activation finds again what it had where the stretch began. -/
theorem State.Comes.resumes {r : Regime} {k : Nat} {m₁ : Machine} {e : State} {f : FrameId} {i j : Nat}
    (hr : r.Governs u p code m) (hreaches : m.Reaches p ⟨m₁, pending, .running⟩) (hk : m₁.calls.size = k)
    (hframe : m₁.frame = some f) (hip : m₁.ip = i) (hslots : Slot.marker ∉ (code.ty i).slots)
    (hsecure : Op.Secure u code.ops stop i (.still []))
    (h : State.Comes pending k stop ⟨m₁, pending, .running⟩ e) (hj : e.machine.ip = j) :
    m₁.Resumes u code i j f e.machine := by
  have horder := hr.order hreaches
  cases horder with
  | @running _ _ g b inCall i' hm hs hq hip' hi =>
  obtain rfl : i' = i := Int.ofNat.inj (hip'.symm.trans hip)
  obtain ⟨f₀, hf₀, habove⟩ := hq.frame
  obtain rfl : f₀ = f := Option.some.inj (hf₀.symm.trans hframe)
  have hlive := hq.live
  rw [hr.ty] at hlive habove
  obtain ⟨fr, hfr⟩ := habove.frame
  -- the part of the run above the activation, as it begins
  obtain ⟨g₁, n₁, b₁, hg₁, habove₁, hbegin⟩ :=
    (hr.usage hreaches).stretch_begins hframe hip hlive hslots hsecure
  obtain ⟨-, rfl⟩ := habove.unique habove₁
  have hbegin' : InOrder (r.above pending g b inCall) ⟨m₁, pending, .running⟩ :=
    .running ⟨hm.backed, hm.runs, hm.decoded, hm.table, hm.entries, hm.clean, hm.bindings⟩ (.floor rfl)
      ⟨hq.stack, hq.frame, hq.captured, hq.calls, hq.natives, hq.live, hq.inCall⟩ hip' hi
  have hk₁ : g₁.calls.size = k := hg₁.trans hk
  have hk₂ : g.calls.size = k := (congrArg Array.size hq.calls).symm.trans hk
  obtain ⟨-, hend, hkeeps⟩ := h.stretches hr hk₁ hreaches hbegin
  have hend' := h.inOrder (hr.valid.above g inCall) rfl hk₂ hbegin'
  obtain ⟨hmode, hpending, hsize, -⟩ := h.arrives
  obtain ⟨m₂, rest, mode⟩ := e
  obtain rfl : mode = .running := hmode
  obtain rfl : rest = pending := hpending
  -- the activation itself is at the end again
  cases hend' with
  | @running _ _ g₂ b₂ inCall₂ j' hm₂ hs₂ hq₂ hip₂ hj₂ =>
  cases hend with
  | @running _ _ g₃ b₃ hm₃ hs₃ hq₃ hgoes₃ =>
  obtain rfl : j' = j := Int.ofNat.inj (hip₂.symm.trans hj)
  obtain ⟨rfl, rfl, rfl⟩ := hs₂.eq_floor rfl ((congrArg Array.size hq₂.calls).symm.trans (hsize.trans hk₂.symm))
  obtain ⟨f₂, hf₂, habove₂⟩ := hq₂.frame
  obtain ⟨f₃, n₃, hf₃, habove₃⟩ := hq₃.frame
  obtain rfl : f₃ = f₂ := Option.some.inj (hf₃.symm.trans hf₂)
  obtain ⟨-, rfl⟩ := habove₂.unique habove₃
  obtain ⟨l, hstack, hfill⟩ := hq.stack
  obtain ⟨l₂, hstack₂, hfill₂⟩ := hq₂.stack
  have hty : (r.above rest g₂ b₂ inCall₂).ty = code.ty := hr.ty
  rw [hty] at habove₂ hfill₂
  rw [hr.ty] at hfill
  rw [show (r.above rest g₂ b₂ inCall₂).tidy = True from hr.tidy] at hfill₂
  refine ⟨hkeeps, ⟨g₂.stack, l, l₂, _, ⟨hm.backed, hstack⟩, hfill.length, ⟨hm₂.backed, hstack₂⟩, hfill₂⟩,
    fun hscopes => ?_, hq₂.natives.trans hq.natives.symm, hty ▸ hq₂.live⟩
  obtain ⟨i₃, a, g', -, hframe₃, hupholds⟩ := hgoes₃.2 (Nat.lt_of_le_of_lt habove.le
    (Array.getElem?_eq_some_iff.mp hfr).1)
  obtain rfl : g' = f₃ := Option.some.inj (hframe₃.symm.trans hf₃)
  have hheight := hupholds.bears.height habove₂ (habove.extends hkeeps.frames)
  have hempty : a.scopes = [] := List.eq_nil_of_length_eq_zero (by omega)
  have hbears := hupholds.bears
  rw [hempty] at hbears
  cases hbears
  exact hframe₃

/-!
# Where a stretch stays
-/

/-- The part of a run above an activation with its boundary frame, in which that activation stays at some
positions up to where nothing more is asked. -/
def Watch.confined (p : Program) (ops : Array Op) (m : Machine) (pending : List Pending) (g : Base) (b : FrameId)
    (low : Nat) (inside stop : Nat → Prop) : Watch where
  program := p
  ops := ops
  library := m.library
  depth := m.options.maxDepth
  root := some m.world.store.frames.size
  conduct := Store.Rewrites fun _ => False
  entry _ := True
  goes _ _ ip _ c := c < low → ∃ i : Nat, ip = i ∧ inside i
  rests _ ip _ c := c < low → ∃ i : Nat, ip = i ∧ inside (i + 1)
  low := low
  floor := some (pending, .active g b)
  stop := fun ip => ∃ i : Nat, ip = i ∧ stop i

theorem Watch.confined_sound {inside : Nat → Prop} (hnatives : m.library.BindsNothing)
    (hsize : code.ops.size ≤ Slot.limit)
    (hclosed : ∀ (i : Nat) op, inside i → ¬ stop i → code.ops[i]? = some op →
      op.Hands code.ops i inside fun _ => True) :
    (Watch.confined p code.ops m pending g b low inside stop).Sound := by
  have hnot : ∀ {c ip}, (Watch.confined p code.ops m pending g b low inside stop).Covers c ip → c < low →
      ∀ i : Nat, ip = i → ¬ stop i := fun h hc i hip hstop =>
    ((h fun h => by cases h).resolve_left (Nat.not_le_of_lt hc)) ⟨i, hip, hstop⟩
  exact {
    natives := hnatives
    floored := fun h => by cases h
    grows := fun h => h.toGrows
    rests_conduct := fun h _ => h
    rests_store := fun h _ _ => h
    enters := fun _ _ _ hlow hc => absurd hlow (Nat.not_le_of_lt hc)
    resumes := fun h hc => by
      obtain ⟨i, rfl, hi⟩ := h hc
      exact ⟨i + 1, rfl, hi⟩
    calls := fun {m m' op c} hcovers hop hcalls h hworks hc => by
      obtain ⟨i, hip, hi⟩ := h hc
      rw [hip, Int.toNat_natCast] at hop
      have hhands := hclosed i op hi (hnot hcovers hc i hip) hop
      refine ⟨i, hworks.ip.trans hip, ?_⟩
      cases op with
      | call | dispatch => exact hhands
      | _ => exact absurd hcalls id
    builds := fun _ _ _ _ => trivial
    onward := fun {m m' op n c} hcovers hop hret h hrun hn hc => by
      obtain ⟨i, hip, hi⟩ := h hc
      rw [hip, Int.toNat_natCast] at hop
      have hhands := hclosed i op hi (hnot hcovers hc i hip) hop
      exact Exec.step_lands hhands hsize hret hrun hn ((Exec.step_ip hret hrun hn).trans hip) }

/-- An activation that is confined to some positions comes to where nothing more is asked without leaving
them. -/
theorem State.Comes.confined {r : Regime} {k : Nat} {m₁ : Machine} {e : State} {i : Nat} {inside : Nat → Prop}
    (hr : r.Governs u p code m) (hreaches : m.Reaches p ⟨m₁, pending, .running⟩) (hk : m₁.calls.size = k)
    (hip : m₁.ip = i) (hi : inside i)
    (hclosed : ∀ (i : Nat) op, inside i → ¬ stop i → code.ops[i]? = some op →
      op.Hands code.ops i inside fun _ => True)
    (h : State.Comes pending k stop ⟨m₁, pending, .running⟩ e) :
    State.Comes pending k (fun i => stop i ∨ ¬ inside i) ⟨m₁, pending, .running⟩ e := by
  have horder := hr.order hreaches
  have husage := hr.usage hreaches
  cases horder with
  | @running _ _ g b inCall i' hm hs hq hip' hi' =>
  cases husage with
  | @running _ _ g₁ b₁ hm₁ hs₁ hq₁ hgoes =>
  obtain ⟨f, hf, habove⟩ := hq.frame
  obtain ⟨f₁, n₁, hf₁, habove₁⟩ := hq₁.frame
  obtain rfl : f₁ = f := Option.some.inj (hf₁.symm.trans hf)
  obtain ⟨-, rfl⟩ := habove.unique habove₁
  have hlow : b < m₁.world.store.frames.size := by
    obtain ⟨fr, hfr⟩ := habove.frame
    exact Nat.lt_of_le_of_lt habove.le (Array.getElem?_eq_some_iff.mp hfr).1
  have hbegin : InStep (Watch.confined p code.ops m pending g₁ b m₁.world.store.frames.size inside stop)
      ⟨m₁, pending, .running⟩ :=
    .running ⟨hm₁.program, hm₁.ops, hm₁.library, hm₁.depth, hm₁.root, fun _ _ _ => trivial, Nat.le_refl _⟩
      (.floor rfl) hq₁ fun _ => ⟨i, hip, hi⟩
  have hbegin' : InOrder (r.above pending g b inCall) ⟨m₁, pending, .running⟩ :=
    .running ⟨hm.backed, hm.runs, hm.decoded, hm.table, hm.entries, hm.clean, hm.bindings⟩ (.floor rfl)
      ⟨hq.stack, hq.frame, hq.captured, hq.calls, hq.natives, hq.live, hq.inCall⟩ hip' hi'
  have hk₁ : g₁.calls.size = k := (congrArg Array.size hq₁.calls).symm.trans hk
  have hk₂ : g.calls.size = k := (congrArg Array.size hq.calls).symm.trans hk
  clear hip hip' hf hf₁ habove habove₁ hq hq₁ hs hs₁ hm hm₁ hgoes hreaches hk hi hi'
  generalize m₁.world.store.frames.size = low at hlow hbegin
  generalize State.mk m₁ pending .running = s at hbegin hbegin' h
  induction h with
  | @here s h => exact .here ⟨h.1, h.2.1, h.2.2.1, h.2.2.2.imp fun i hi => ⟨hi.1, Or.inl hi.2⟩⟩
  | @on s s' e hnot hopen hnext h ih =>
    have hstay := h.not_leaves hnot hopen hnext
      (w := Watch.confined p code.ops m pending g₁ b low inside stop) rfl hk₁ fun _ h => h
    have hnext' := advance_inStep (Watch.confined_sound hr.natives hr.limit hclosed) hbegin hstay
    have hnext'' := advance_inOrder (hr.valid.above g inCall) hbegin' (h.not_leaves_regime hopen hnext rfl hk₂)
    rw [hnext] at hnext' hnext''
    refine .on (fun hat => ?_) hopen hnext (ih hnext' hnext'')
    obtain ⟨hmode, hpending, hsize, j, hj, hstops⟩ := hat
    obtain ⟨m₂, rest, mode⟩ := s
    obtain rfl : mode = .running := hmode
    obtain rfl : rest = pending := hpending
    refine hstops.elim (fun hstop => hnot ⟨rfl, rfl, hsize, j, hj, hstop⟩) fun hout => hout ?_
    -- the activation itself is in front of an instruction, so it is inside
    cases hbegin' with
    | @running _ _ g₂ b₂ inCall₂ j₂ hm₂ hs₂ hq₂ hip₂ hj₂ =>
    cases hbegin with
    | @running _ _ g₃ b₃ hm₃ hs₃ hq₃ hgoes₃ =>
    obtain ⟨rfl, rfl, rfl⟩ :=
      hs₂.eq_floor rfl ((congrArg Array.size hq₂.calls).symm.trans (hsize.trans hk₂.symm))
    obtain ⟨f₂, hf₂, habove₂⟩ := hq₂.frame
    obtain ⟨f₃, n₃, hf₃, habove₃⟩ := hq₃.frame
    obtain rfl : f₃ = f₂ := Option.some.inj (hf₃.symm.trans hf₂)
    obtain ⟨-, rfl⟩ := habove₂.unique habove₃
    obtain ⟨j', hj', hinside⟩ := hgoes₃ hlow
    obtain rfl : j' = j := Int.ofNat.inj (hj'.symm.trans hj)
    exact hinside

end
end ScriptEngine
