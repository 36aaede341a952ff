import ScriptEngine.Compiler.Generate
import ScriptEngine.Proofs.Machine.Coordination
import ScriptEngine.Proofs.Machine.Executions
import ScriptEngine.Proofs.Machine.Links
import ScriptEngine.Proofs.Native.Standard

/-!
# Walks along frames end

Names are looked up along the frames that functions were built in, and calls are listed along the frames
that they return to. Closures keep frames when their calls are over, callbacks return into the middle of
natives, and a rollback takes an engine back to the frame of a snapshot. But no link is ever changed, and
each was made to a frame that was there before; and the snapshots that natives and nested runs hold were
taken in frames that are still there. Frames are numbered in the order in which they are made.
-/

namespace ScriptEngine

instance : Store.Lenient Store.BuiltOn where
  trans := .trans
  same := .of_same
  copy := .copy

/-- An engine that is taken back to the snapshot is in a frame that is there. -/
def Snapshot.Rooted (p : Option Program) (s : Store) (sn : Snapshot) : Prop :=
  s.Supports (p ≠ none) sn.frame sn.calls

/-- Whatever the work is handed, it leads back only to snapshots with frames that are there, and builds
on the store. -/
def Pending.Rooted (p : Option Program) (s : Store) : Pending → Prop
  | .nested sn => sn.Rooted p s
  | .native _ sn resume => sn.Rooted p s ∧ ∃ kept : List Snapshot, (∀ k ∈ kept, k.Rooted p s) ∧
    ∀ o w, (resume o w).Abides Store.BuiltOn kept w.store
  | _ => True

/-- The engine and the work that waits go on with linked frames. -/
structure State.Rooted (l : Library) (p : Option Program) (st : State) : Prop where
  machine : st.machine.Rooted l p st.machine.world.store
  pending : ∀ work ∈ st.pending, work.Rooted p st.machine.world.store

/-- What a transition leads to has linked frames. -/
def Advance.Rooted (l : Library) (p : Option Program) : Advance → Prop
  | .next st => st.Rooted l p
  | .finished _ m => m.Rooted l p m.world.store
  | .crashed _ m => m.Rooted l p m.world.store

section
variable {l : Library} {p : Option Program} {s s' : Store} {m m' : Machine} {sn : Snapshot}
  {pending : List Pending} {info : NativeInfo}

theorem Snapshot.Rooted.builtOn (h : sn.Rooted p s) (hbuilt : s.BuiltOn s') : sn.Rooted p s' :=
  Store.Supports.builtOn h hbuilt

theorem Pending.Rooted.builtOn {work : Pending} (h : work.Rooted p s) (hbuilt : s.BuiltOn s') :
    work.Rooted p s' := by
  cases work with
  | nested sn => exact Snapshot.Rooted.builtOn h hbuilt
  | native info sn resume =>
    obtain ⟨hsn, kept, hkept, hresume⟩ := h
    exact ⟨hsn.builtOn hbuilt, kept, fun k hk => (hkept k hk).builtOn hbuilt, hresume⟩
  | _ => trivial

/-- Work that waits does so as the store is built on. -/
theorem rooted_waits (h : ∀ work ∈ pending, work.Rooted p s) (hbuilt : s.BuiltOn s') :
    ∀ work ∈ pending, work.Rooted p s' :=
  fun work hwork => (h work hwork).builtOn hbuilt

namespace Machine.Rooted

theorem snapshot (h : m.Rooted l p s) : m.snapshot.Rooted p s :=
  h.frame

/-- After a rollback there are at most as many calls as there were at the snapshot. -/
theorem restore (h : m.Rooted l p s) (hsn : sn.Rooted p s) : (m.restore sn).Rooted l p s := by
  refine ⟨h.library, h.program, h.store, hsn.frame, fun hloaded => ?_⟩
  obtain ⟨f, hf, hdeep⟩ := hsn.deep hloaded
  refine ⟨f, hf, hdeep.fewer ?_⟩
  show (m.calls.shrink sn.calls).size ≤ sn.calls
  rw [Array.size_shrink]
  exact Nat.min_le_left _ _

end Machine.Rooted

namespace State

/-!
# Instructions
-/

theorem proceed_rooted (hm : m.Rooted l p m.world.store)
    (hwaits : ∀ work ∈ pending, work.Rooted p m.world.store) (n : Exec.Next) :
    (proceed pending n m).Rooted l p := by
  cases n with
  | next | skip => exact ⟨hm.of_same (.refl _) rfl rfl rfl rfl, hwaits⟩
  | stay | done => exact ⟨hm, hwaits⟩
  | call => exact ⟨hm, List.forall_mem_cons.mpr ⟨trivial, hwaits⟩⟩

theorem after_rooted {q : Program} (hm : m.Rooted l (some q) m.world.store)
    (hwaits : ∀ work ∈ pending, work.Rooted (some q) m.world.store) (op : Op) :
    (after pending (Exec.step op m)).Rooted l (some q) := by
  have hstep := Exec.builds_step op (m := m) l q hm
  cases hrun : Exec.step op m with
  | ok n m' =>
    rw [hrun] at hstep
    exact proceed_rooted hstep.1 (rooted_waits hwaits hstep.2) n
  | error e m' =>
    rw [hrun] at hstep
    cases e with
    | fault f => exact ⟨hstep.1, rooted_waits hwaits hstep.2⟩
    | crash message => exact hstep.1

/-- One instruction, if there is one. -/
theorem execute_rooted (hm : m.Rooted l p m.world.store)
    (hwaits : ∀ work ∈ pending, work.Rooted p m.world.store) : (execute m pending).Rooted l p := by
  have hnoted : m.Builds m.noted := by
    unfold Machine.noted
    split
    · exact .tell m _ _
    · exact .refl m
  rw [execute_noted, hm.program]
  cases p with
  | none => exact hm
  | some q =>
    obtain ⟨hm', hbuilt⟩ := hnoted l q hm
    dsimp only
    split
    · split <;> exact ⟨hm, hwaits⟩
    split
    · exact hm
    split
    · exact hm'
    · exact after_rooted hm' (rooted_waits hwaits hbuilt) _

/-!
# Natives
-/

/-- The engine is back where the native was called. -/
theorem failNative_rooted (hm : m.Rooted l p m.world.store)
    (hwaits : ∀ work ∈ pending, work.Rooted p m.world.store) (hsn : sn.Rooted p m.world.store)
    (f : Fault) : (failNative m pending info sn f).Rooted l p := by
  have hout : m.outOfNative.Rooted l p m.world.store := hm.of_same (.refl _) rfl rfl rfl rfl
  rcases failNative_cases m pending info sn f with ⟨j, hj⟩ | hcrash
  · rw [hj]
    exact ⟨(hout.restore hsn).of_same (.refl _) rfl rfl rfl rfl, hwaits⟩
  · rw [hcrash]
    exact hout

/-- What the engine does for a native that works on the store. -/
theorem follow_rooted {a : Action} {kept : List Snapshot} (ha : a.Abides Store.BuiltOn kept s)
    (hm : m.Rooted l p s) (hwaits : ∀ work ∈ pending, work.Rooted p s) (hsn : sn.Rooted p s)
    (hkept : ∀ k ∈ kept, k.Rooted p s) : (follow m pending info sn a).Rooted l p := by
  induction ha generalizing m with
  | done h => exact ⟨hm.of_same h rfl rfl rfl rfl, rooted_waits hwaits h⟩
  | @fail _ _ f w h =>
    exact failNative_rooted (m := { m with world := w }) (hm.of_same h rfl rfl rfl rfl)
      (rooted_waits hwaits h) (hsn.builtOn h) f
  | crash h => exact hm.of_same h rfl rfl rfl rfl
  | invoke h hresume =>
    refine ⟨hm.of_same h rfl rfl rfl rfl, List.forall_mem_cons.mpr ⟨?_, rooted_waits hwaits h⟩⟩
    exact ⟨hsn.builtOn h, _, fun k hk => (hkept k hk).builtOn h, hresume⟩
  | depth h _ ih =>
    exact ih _ (hm.of_same h rfl rfl rfl rfl) (rooted_waits hwaits h) (hsn.builtOn h)
      fun k hk => (hkept k hk).builtOn h
  | save h _ ih =>
    refine ih _ (hm.of_same h rfl rfl rfl rfl) (rooted_waits hwaits h) (hsn.builtOn h) ?_
    exact List.forall_mem_cons.mpr ⟨hm.snapshot.builtOn h, fun k hk => (hkept k hk).builtOn h⟩
  | restore h hmem _ ih =>
    rw [follow]
    split
    · exact ih ((hm.restore (hkept _ hmem)).of_same h rfl rfl rfl rfl) (rooted_waits hwaits h)
        (hsn.builtOn h) fun k hk => (hkept k hk).builtOn h
    · exact hm.of_same h rfl rfl rfl rfl

theorem startNative_rooted (hl : l.Abides Store.BuiltOn) (hm : m.Rooted l p m.world.store)
    (hwaits : ∀ work ∈ pending, work.Rooted p m.world.store) (receiver : Option Value)
    (args : List Value) : (startNative m pending info receiver args).Rooted l p := by
  have henter : (enterNative m pending info (Exec.withReceiver receiver args)).Rooted l p := by
    unfold enterNative
    split
    · exact ⟨hm, hwaits⟩
    · have habides := hl info (Exec.withReceiver receiver args) m.world
      rw [← hm.library] at habides
      exact follow_rooted habides (hm.of_same (.refl _) rfl rfl rfl rfl) hwaits hm.snapshot
        (List.forall_mem_nil _)
  unfold startNative
  dsimp only
  split
  · split
    · exact ⟨hm, hwaits⟩
    · exact henter
  · exact henter

/-!
# Starting calls
-/

theorem startConversion_rooted (hm : m.Rooted l p m.world.store)
    (hwaits : ∀ work ∈ pending, work.Rooted p m.world.store) (t : TypeInfo) (args : List Value) :
    (startConversion m pending t args).Rooted l p := by
  unfold startConversion
  split
  · rename_i v
    split
    · exact ⟨hm.of_same (.refl _) rfl rfl rfl rfl, List.forall_mem_cons.mpr ⟨trivial, hwaits⟩⟩
    have hbuilt := Native.tame_convert (R := Store.BuiltOn) v t.name m.world
    unfold convertValue
    cases hrun : Native.convert v t.name m.world with
    | ok v' w =>
      rw [hrun] at hbuilt
      rw [Exec.effect_of_ok hrun]
      exact ⟨hm.of_same hbuilt rfl rfl rfl rfl, rooted_waits hwaits hbuilt⟩
    | error e w =>
      rw [hrun] at hbuilt
      rw [Exec.effect_of_error hrun]
      cases e with
      | fault f => exact ⟨hm.of_same hbuilt.2 rfl rfl rfl rfl, rooted_waits hwaits hbuilt.2⟩
      | crash message => exact hm.of_same hbuilt rfl rfl rfl rfl
  · exact ⟨hm, hwaits⟩

theorem startConstruction_rooted (hm : m.Rooted l p m.world.store)
    (hwaits : ∀ work ∈ pending, work.Rooted p m.world.store) (t : TypeInfo) (args : List Value) :
    (startConstruction m pending t args).Rooted l p := by
  have hnew : m.world.store.BuiltOn (m.world.store.newInstance t).2 := .of_same rfl rfl
  have hm' : (m.withStore (m.world.store.newInstance t).2).Rooted l p (m.world.store.newInstance t).2 :=
    hm.of_same hnew rfl rfl rfl rfl
  have hwaits' := rooted_waits hwaits hnew
  unfold startConstruction
  rw [show Exec.onStore (fun s => s.newInstance t) m =
    .ok (m.world.store.newInstance t).1 (m.withStore (m.world.store.newInstance t).2) from rfl]
  dsimp only
  split
  · exact ⟨hm'.of_same (.refl _) rfl rfl rfl rfl, List.forall_mem_cons.mpr ⟨trivial, hwaits'⟩⟩
  split
  · exact ⟨hm', hwaits'⟩
  split
  · obtain ⟨hframes, hclosures⟩ := fill_same (m.world.store.newInstance t).2
      (m.world.store.newInstance t).1 (t.fields.zip args)
    have hfill := Store.BuiltOn.of_same hframes hclosures
    exact ⟨hm'.of_same hfill rfl rfl rfl rfl, rooted_waits hwaits' hfill⟩
  · exact ⟨hm', hwaits'⟩

/-- The run of a closure on behalf of work that waits. -/
theorem startNested_rooted {c : ClosureId} {cl : Closure} (hm : m.Rooted l p m.world.store)
    (hwaits : ∀ work ∈ pending, work.Rooted p m.world.store)
    (hc : m.world.store.closure? c = some cl) (args : List Value) :
    (startNested m pending cl args).Rooted l p := by
  unfold startNested
  dsimp only
  rcases Exec.enterClosure_spec cl args true (m.natives.back?.getD Text.empty) m with
    ⟨hok, -⟩ | ⟨f, hf⟩
  · rw [hok]
    obtain ⟨hm', hbuilt⟩ := hm.entered hc args true (m.natives.back?.getD Text.empty)
    refine ⟨hm', List.forall_mem_cons.mpr ⟨?_, rooted_waits hwaits hbuilt⟩⟩
    exact hm.snapshot.builtOn hbuilt
  · rw [hf]
    dsimp only
    split
    · exact ⟨hm.restore hm.snapshot, hwaits⟩
    · exact hm

theorem invoke_rooted (hl : l.Abides Store.BuiltOn) (hm : m.Rooted l p m.world.store)
    (hwaits : ∀ work ∈ pending, work.Rooted p m.world.store) (callee : Value) (args : List Value) :
    (invoke m pending callee args).Rooted l p := by
  cases callee with
  | closure c =>
    unfold invoke
    dsimp only
    cases hc : m.world.store.closure? c with
    | some cl => exact startNested_rooted hm hwaits hc args
    | none => exact hm
  | native info => exact startNative_rooted hl hm hwaits none args
  | bound info receiver => exact startNative_rooted hl hm hwaits (some receiver) args
  | type t =>
    unfold invoke
    dsimp only
    split
    · exact startConstruction_rooted hm hwaits t args
    · exact startConversion_rooted hm hwaits t args
  | _ => exact ⟨hm, hwaits⟩

/-!
# Handing over outcomes
-/

theorem endNested_rooted (hm : m.Rooted l p m.world.store)
    (hwaits : ∀ work ∈ pending, work.Rooted p m.world.store) (hsn : sn.Rooted p m.world.store)
    (o : Except Fault Value) : (endNested m pending sn o).Rooted l p := by
  unfold endNested
  split
  · exact ⟨hm.of_same (.refl _) rfl rfl rfl rfl, hwaits⟩
  · split
    · exact ⟨hm.restore hsn, hwaits⟩
    · exact hm

/-- The outcome of a call for the work that asked for it. -/
theorem handOut_rooted (hm : m.Rooted l p m.world.store)
    (hwaits : ∀ work ∈ pending, work.Rooted p m.world.store) (o : Except Fault Value) :
    (handOut m pending o).Rooted l p := by
  cases pending with
  | nil => exact hm
  | cons work rest =>
    obtain ⟨hwork, hrest⟩ := List.forall_mem_cons.mp hwaits
    have hout : m.outOfNative.Rooted l p m.world.store := hm.of_same (.refl _) rfl rfl rfl rfl
    cases work with
    | nested sn => exact endNested_rooted hm hrest hwork o
    | native info sn resume =>
      obtain ⟨hsn, kept, hkept, hresume⟩ := hwork
      exact follow_rooted (hresume o m.world) (hm.of_same (.refl _) rfl rfl rfl rfl) hrest hsn hkept
    | construct i => exact ⟨hout, hrest⟩
    | convert => exact ⟨hout, hrest⟩
    | instruction =>
      cases o with
      | ok v => exact ⟨hm.of_same (.refl _) rfl rfl rfl rfl, hrest⟩
      | error f => exact ⟨hm, hrest⟩

/-- One transition keeps frames linked. -/
theorem Rooted.advance {st : State} (hl : l.Abides Store.BuiltOn) (h : st.Rooted l p) :
    st.advance.Rooted l p := by
  obtain ⟨m, pending, mode⟩ := st
  cases mode with
  | running => exact execute_rooted h.machine h.pending
  | invoking callee args => exact invoke_rooted hl h.machine h.pending callee args
  | delivering o => exact handOut_rooted h.machine h.pending o

end State

/-!
# The life of an engine
-/

/-- A program begins in a frame of its own, and no call is in progress. -/
theorem Machine.Rooted.loaded (h : m.Rooted l p m.world.store) (q : Program) :
    (m.loaded q).Rooted l (some q) (m.loaded q).world.store := by
  obtain ⟨j, hj⟩ := m.loaded_eq q
  have hframe := Store.newFrame_frame? m.world.store
    ⟨Table.empty, none, .boundary m.options.rootName none none Text.empty⟩
  rw [hj]
  exact ⟨h.library, rfl, h.store.buildsOn (.root _), Store.supports_some (Store.lt_of_frame? hframe) .here⟩

namespace Life

variable {x y : Life}

/-- The engine runs some program with linked frames, or did so. -/
def Rooted (l : Library) : Life → Prop
  | resting m => ∃ p, m.Rooted l p m.world.store
  | running st => ∃ p, st.Rooted l p

theorem Rooted.step (hl : l.Abides Store.BuiltOn) (hx : x.Rooted l) (h : Step Store.BuiltOn x y) :
    y.Rooted l := by
  cases h with
  | @execute m q =>
    obtain ⟨p, hm⟩ := hx
    exact ⟨some q, hm.loaded q, List.forall_mem_nil _⟩
  | @refuse m q flaw =>
    obtain ⟨p, hm⟩ := hx
    exact ⟨some q, (hm.loaded q).of_same (.refl _) rfl rfl rfl rfl⟩
  | call =>
    obtain ⟨p, hm⟩ := hx
    exact ⟨p, hm, List.forall_mem_nil _⟩
  | advance h =>
    obtain ⟨p, hst⟩ := hx
    have hnext := hst.advance hl
    rw [h] at hnext
    exact ⟨p, hnext⟩
  | finish h | crash h =>
    obtain ⟨p, hst⟩ := hx
    have hend := hst.advance hl
    rw [h] at hend
    exact ⟨p, hend⟩
  | @host m w h =>
    obtain ⟨p, hm⟩ := hx
    have hbuilt : m.world.store.BuiltOn w.store := by
      rcases h with h | h
      · rw [h]
        exact .refl _
      · exact h
    exact ⟨p, hm.of_same hbuilt rfl rfl rfl rfl⟩

/-- In the whole life of an engine frames stay linked. -/
theorem Leads.rooted (hl : l.Abides Store.BuiltOn) (hx : x.Rooted l) (h : Leads Store.BuiltOn x y) :
    y.Rooted l := by
  induction h with
  | refl => exact hx
  | tail _ hstep ih => exact ih.step hl hstep

theorem Rooted.linked (hx : x.Rooted l) : x.store.Linked := by
  cases x with
  | resting m =>
    obtain ⟨p, hm⟩ := hx
    exact hm.store
  | running st =>
    obtain ⟨p, hst⟩ := hx
    exact hst.machine.store

/-- An engine that is new runs no program and has no frames. -/
theorem rooted_new {w : World} (hframes : w.store.frames = #[]) (hclosures : w.store.closures = #[])
    (options : Options) : (resting (.new w l options)).Rooted l := by
  refine ⟨none, rfl, rfl, Store.linked_of_none hframes hclosures, ?_⟩
  exact ⟨Store.hasFrame_none _, fun h => absurd rfl h⟩

end Life

end

/-!
# The main statement
-/

/-- In the whole life of an engine whose table holds no functions of programs, whatever programs it
executes and whatever calls they and its natives make, a frame hangs on earlier frames and returns to
earlier frames, the way outward leads from it to a root, and every walk from it ends. -/
theorem frame_walks_end {library : Library} {w : World} {options : Options} {x : Life}
    (hlibrary : library.Abides Store.BuiltOn) (hframes : w.store.frames = #[])
    (hclosures : w.store.closures = #[])
    (hlife : Life.Leads Store.BuiltOn (.resting (.new w library options)) x) {f : FrameId} {fr : Frame}
    (hf : x.store.frame? f = some fr) :
    (∀ g, fr.outer = some g → g < f) ∧ (∀ g, fr.caller = some g → g < f) ∧
    (∃ front r root, x.store.Outward (some f) (front ++ [r]) ∧ x.store.frame? r = some root ∧
      root.IsRoot) ∧
    x.store.WalksEnd f := by
  have hlinked : x.store.Linked := (hlife.rooted hlibrary (Life.rooted_new hframes hclosures options)).linked
  have hlt : f < x.store.frames.size := Store.lt_of_frame? hf
  obtain ⟨fs, hchain⟩ := hlinked.outer.chain hlt
  obtain ⟨front, r, root, rfl, hr, hroot⟩ := hlinked.ends_at_root hchain nofun
  exact ⟨hlinked.outer f fr hf, hlinked.callers f fr hf, ⟨front, r, root, hchain, hr, hroot⟩,
    hlinked.walksEnd hlt⟩

/-!
# A function that is called back after the call that built it
-/

/-- The program `host_rollback(func(x) { return func() { return x } }(null))`. -/
def rolledBackCall : List Stmt :=
  [.expr .zero (.call .zero (.var .zero "host_rollback")
    [.call .zero
      (.func .zero Text.empty [.mk "x" none]
        (.mk .zero [.ret .zero (some
          (.func .zero Text.empty [] (.mk .zero [.ret .zero (some (.var .zero "x"))])))]))
      [.null .zero]])]

/-- A new engine with the functions that a host may add. -/
def hostedEngine : Machine :=
  .new ⟨.empty, .new Text.empty, .new false⟩ (Library.empty.registerAll Native.embeddingPrimitives)
    (.ofHost false false Text.empty 0)

/-- While the native has the inner function called, its frame hangs on the frame of a call that is over,
and returns to the first one. -/
theorem frame_walks_end_rolledBackCall :
    ∃ c s fr, (Compiler.compile .absent false rolledBackCall).result = .ok c ∧
      Life.Leads Store.BuiltOn (.resting hostedEngine) (.running s) ∧
      s.machine.world.store.frame? 2 = some fr ∧ fr.outer = some 1 ∧ fr.caller = some 0 ∧
      (∃ front r root, s.machine.world.store.Outward (some 2) (front ++ [r]) ∧
        s.machine.world.store.frame? r = some root ∧ root.IsRoot) ∧
      s.machine.world.store.WalksEnd 2 := by
  obtain ⟨c, hcompiled, hflaw, hsteps⟩ :
      ∃ c, (Compiler.compile .absent false rolledBackCall).result = .ok c ∧
        (Op.ofProgram c.program).flaw.isNone = true ∧
        (((hostedEngine.start c.program).steps 16).any fun s =>
          (s.machine.world.store.frame? 2).any fun fr => fr.outer == some 1 && fr.caller == some 0) = true :=
    ⟨_, rfl, by decide +kernel, by decide +kernel⟩
  obtain ⟨s, hs, hframe⟩ := (Option.any_eq_true _ _).mp hsteps
  obtain ⟨fr, hfr, hlinks⟩ := (Option.any_eq_true _ _).mp hframe
  obtain ⟨houter, hcaller⟩ := Bool.and_eq_true_iff.mp hlinks
  have hlife : Life.Leads Store.BuiltOn (.resting hostedEngine) (.running s) :=
    .head (.execute (Option.isNone_iff_eq_none.mp hflaw)) (Life.Leads.of_leads (.of_steps hs))
  have hlibrary : (Library.empty.registerAll Native.embeddingPrimitives).Abides Store.BuiltOn := by
    refine Library.abides_of_standard fun b hb => Or.inr ?_
    exact (Library.mem_registerAll hb).resolve_left (Array.not_mem_empty b)
  exact ⟨c, s, fr, hcompiled, hlife, hfr, eq_of_beq houter, eq_of_beq hcaller,
    (frame_walks_end hlibrary rfl rfl hlife hfr).2.2⟩

end ScriptEngine
