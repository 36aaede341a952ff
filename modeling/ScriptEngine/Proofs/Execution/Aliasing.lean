import ScriptEngine.Proofs.Execution.Compiled
import ScriptEngine.Proofs.Machine.Executions
import ScriptEngine.Proofs.Store.Contents

/-!
# Variables do not alias

Every value is copied before it is bound to a name, but for two cases: the receiver of a method, and
what a closure is given when a native, a constructor, a conversion or the host calls it. So two names
that are bound to one object are due to one of these, and changing the object of one name in place is
not seen under any other name.
-/

namespace ScriptEngine

/-- What a native may make of a store, and the host between two runs: values stay in scope, nothing is
bound, and lists keep their cells to themselves. -/
structure Store.Serves (s s' : Store) : Prop where
  tends : s.Tends s'
  rows : s.Separate → s'.Separate

namespace Life

/-- On the way from the first state of the engine to the second, the parameter was bound to the value
as it was: as the receiver of a method, or by a call that a native, a constructor, a conversion or the
host made. -/
def Lent (x y : Life) (f : FrameId) (name : Text) (v : Value) : Prop :=
  ∃ s : State, Leads Store.Serves x (.running s) ∧ Leads Store.Serves (.running s) y ∧
    s.Entrusts f name v

/-- What is known of an engine whose natives serve programs, with `lent` for what was lent. -/
def servedBy {library : Library} (hheeds : library.Heeds Store.Serves)
    (lent : FrameId → Text → Value → Prop) : Law where
  library := library
  native := Store.Serves
  tends _ _ h := h.tends
  heeds := hheeds
  lent := lent
  past := ⟨.empty, #[], Text.empty, #[], 0⟩
  twin := False
  inert h := h.elim
  stateless h := h.elim

section
variable {library : Library} {x y z : Life} {lent lent' : FrameId → Text → Value → Prop}

theorem Sound.withLent {hheeds : library.Heeds Store.Serves} (h : x.Sound (servedBy hheeds lent)) :
    x.Sound (servedBy hheeds lent') := by
  cases x with
  | resting m => exact { (show m.Sound (servedBy hheeds lent) from h) with }
  | running s =>
    have hs : s.Sound (servedBy hheeds lent) := h
    refine ⟨{ hs.machine with }, fun work hwork => ?_, hs.mode⟩
    have hwork := hs.pending work hwork
    cases work <;> exact hwork

/-- In the life of an engine, names that are bound to one object were lent it. -/
theorem Leads.apart {hheeds : library.Heeds Store.Serves} (hx : x.Sound (servedBy hheeds lent))
    (hrows : x.store.Separate) (hnone : x.store.frames = #[]) (h : Leads Store.Serves x y) :
    y.Sound (servedBy hheeds (Lent x y)) ∧ y.store.Separate ∧ y.store.Apart (Lent x y) := by
  induction h with
  | refl =>
    refine ⟨hx.withLent, hrows, fun f name _ _ v hv => ?_⟩
    obtain ⟨fr, hfr, -⟩ := hv
    unfold Store.frame? at hfr
    rw [hnone] at hfr
    cases hfr
  | @tail y z hleads hstep ih =>
    obtain ⟨hsound, hseparate, hapart⟩ := ih
    -- Everything that was lent before the step was lent before, and the step may lend something more.
    have hbefore : ∀ f name v, Lent x y f name v → Lent x z f name v :=
      fun f name v ⟨s, hs, hsy, hentrusts⟩ => ⟨s, hs, hsy.tail hstep, hentrusts⟩
    have hnow : ∀ f name v, y.Entrusts f name v → Lent x z f name v := by
      intro f name v hentrusts
      cases y with
      | resting m => cases hentrusts
      | running s => exact ⟨s, hleads, .single hstep, hentrusts⟩
    have hwith : y.Sound (servedBy hheeds (Lent x z)) := hsound.withLent
    obtain ⟨hsound', hchanges⟩ := hwith.step hstep (fun h => h) hnow
    have hscoped : y.store.Scoped := by
      cases y with
      | resting m => exact Machine.Sound.store hsound
      | running s => exact hsound.machine.store
    refine ⟨hsound', ?_, ?_⟩
    · exact hchanges.separate (fun _ _ h => h.tends) (fun _ _ h => h.rows) hscoped hseparate
    · refine hchanges.apart (fun _ _ h => h.tends) ?_
      intro f name g other v hv hv' hhandle hne
      exact (hapart f name g other v hv hv' hhandle hne).imp (hbefore f name v) (hbefore g other v)

end
end Life

/-- In every state of every run in the life of an engine, two names that are bound to the same list,
dict, instance or closure are due to a parameter that was given it as it was. Hence changing the object
of one name in place is not seen in what the object of another name holds. -/
theorem variables_do_not_alias {library : Library} {w : World} {options : Options} {s : State}
    (hheeds : library.Heeds Store.Serves) (hstore : w.store.Scoped) (hrows : w.store.Separate)
    (hnone : w.store.frames = #[]) (hbindings : library.bindings.Every w.store.Has)
    (hlife : Life.Leads Store.Serves (.resting (.new w library options)) (.running s))
    {f g : FrameId} {name other : Text} (hne : (f, name) ≠ (g, other)) :
    (∀ v, v.isHandle = true → s.machine.world.store.Holds f name v →
      s.machine.world.store.Holds g other v →
      Life.Lent (.resting (.new w library options)) (.running s) f name v ∨
        Life.Lent (.resting (.new w library options)) (.running s) g other v) ∧
    ∀ u v s', u.isHandle = true → s.machine.world.store.Holds f name u →
      s.machine.world.store.Holds g other v →
      ¬ Life.Lent (.resting (.new w library options)) (.running s) f name u →
      ¬ Life.Lent (.resting (.new w library options)) (.running s) g other v →
      s.machine.world.store.Alters u s' →
      s'.content v = s.machine.world.store.content v := by
  have hnew : Life.Sound (Life.servedBy hheeds fun _ _ _ => True) (.resting (.new w library options)) :=
    .new hstore hbindings options
  obtain ⟨hsound, hseparate, hapart⟩ := hlife.apart hnew hrows hnone
  have hscoped : s.machine.world.store.Scoped := hsound.machine.store
  refine ⟨fun v hhandle hv hv' => hapart f name g other v hv hv' hhandle hne, ?_⟩
  intro u v s' hhandle hu hv hown hown' halters
  refine halters.content hscoped hseparate (hu.has hscoped) (hv.has hscoped) fun heq => ?_
  subst heq
  exact (hapart f name g other u hu hv hhandle hne).elim hown hown'

/-!
# A method that is called on a variable
-/

/-- The program `impl touch for List { return self }; a = []; a.touch()`. -/
def touchedList : List Stmt :=
  [.impl .zero "touch" "List" [] (.mk .zero [.ret .zero (some (.var .zero "self"))]),
    .expr .zero (.assign .zero (.var .zero "a") (.list .zero []) .nearest),
    .expr .zero (.call .zero (.member .zero (.var .zero "a") "touch") [])]

/-- The list that `a` in the first frame and `self` in the second are both bound to. -/
def State.touched? (s : State) : Option ListId :=
  match (s.machine.world.store.frame? 0).bind (·.vars.get? "a"),
    (s.machine.world.store.frame? 1).bind (·.vars.get? "self") with
  | some (.list l), some (.list l') => if l = l' then some l else none
  | _, _ => none

theorem State.holds_touched {s : State} {l : ListId} (h : s.touched? = some l) :
    s.machine.world.store.Holds 0 "a" (.list l) ∧ s.machine.world.store.Holds 1 "self" (.list l) := by
  unfold touched? at h
  split at h
  · rename_i hvar hself
    split at h
    · rename_i heq
      cases h
      exact ⟨Option.bind_eq_some_iff.mp hvar, heq ▸ Option.bind_eq_some_iff.mp hself⟩
    · cases h
  · cases h

theorem variables_do_not_alias_touchedList :
    ∃ c s l, (Compiler.compile .absent false touchedList).result = .ok c ∧
      Life.Leads Store.Serves (.resting relayEngine) (.running s) ∧
      s.machine.world.store.Holds 0 "a" (.list l) ∧ s.machine.world.store.Holds 1 "self" (.list l) ∧
      (Life.Lent (.resting relayEngine) (.running s) 0 "a" (.list l) ∨
        Life.Lent (.resting relayEngine) (.running s) 1 "self" (.list l)) := by
  obtain ⟨c, hcompiled, hflaw, hsteps⟩ :
      ∃ c, (Compiler.compile .absent false touchedList).result = .ok c ∧
        (Op.ofProgram c.program).flaw.isNone = true ∧
        (((relayEngine.start c.program).steps 19).bind State.touched?).isSome = true :=
    ⟨_, rfl, by decide +kernel, by decide +kernel⟩
  obtain ⟨l, hl⟩ := Option.isSome_iff_exists.mp hsteps
  obtain ⟨s, hs, htouched⟩ := Option.bind_eq_some_iff.mp hl
  obtain ⟨hvar, hself⟩ := State.holds_touched htouched
  have hlife : Life.Leads Store.Serves (.resting relayEngine) (.running s) :=
    .head (.execute (Option.isNone_iff_eq_none.mp hflaw)) (Life.Leads.of_leads (.of_steps hs))
  have hheeds : Library.relaying.Heeds Store.Serves :=
    Library.relaying_heeds fun s hs => ⟨⟨hs, .refl s, rfl⟩, id⟩
  have hbindings : Library.relaying.bindings.Every Store.empty.Has := by
    intro e he
    rw [List.mem_singleton.mp he]
    trivial
  refine ⟨c, s, l, hcompiled, hlife, hvar, hself, ?_⟩
  refine (variables_do_not_alias hheeds Store.scoped_empty ?_ rfl hbindings hlife ?_).1 (.list l) rfl hvar hself
  · exact fun _ _ _ _ h => by cases h
  · exact fun h => by cases h

end ScriptEngine
