import ScriptEngine.Proofs.Execution.Compiled
import ScriptEngine.Proofs.Execution.Equality
import ScriptEngine.Proofs.Execution.Unwinding
import ScriptEngine.Proofs.Machine.Coordination
import ScriptEngine.Proofs.Machine.Exports
import ScriptEngine.Proofs.Machine.Places

/-!
# What programs export

A program whose exports stand at its top level comes to its statements one after the other. In a
statement that exports nothing what was exported so far stays as it is, whatever functions and callbacks
are called there; an export adds the values that its names have. So in the end the exports are what was
exported.
-/

namespace ScriptEngine

/-- The names of the export statement whose code begins at the position. -/
def Compiler.exportAt (body : List Stmt) (ip : Int) : Option (List Text) :=
  (List.range body.length).findSome? fun (k : Nat) =>
    match body[k]? with
    | some (.exports _ names) => if (start body k : Int) = ip then some names else none
    | _ => none

namespace State

/-- The export that is about to be executed, if there is one. -/
def exporting (body : List Stmt) (s : State) : List Exporting :=
  match s.mode with
  | .running =>
    match Compiler.exportAt body s.machine.ip with
    | some names => [⟨names, s.machine⟩]
    | none => []
  | _ => []

/-- The exports that are executed in the next transitions of a run, in order. -/
def exportings (body : List Stmt) : Nat → State → List Exporting
  | 0, _ => []
  | fuel + 1, s => s.exporting body ++
    match s.advance with
    | .next s' => exportings body fuel s'
    | _ => []

/-- The program itself is in front of a statement, or inside of one that exports nothing. -/
inductive Stays (body : List Stmt) (k : Nat) (s : State) : Prop
  | front (hfree : s.Free) (hplace : s.place = Compiler.start body k)
  | inside {st : Stmt} (hst : body[k]? = some st) (hexport : st.isExport = false)
    (hlow : (Compiler.start body k : Int) ≤ s.place) (hhigh : s.place < Compiler.start body (k + 1))

end State

/-- The exports that are executed when the engine executes the program of a tree. -/
def Machine.exportings (m : Machine) (fuel : Nat) (body : List Stmt) (p : Program) : List Exporting :=
  State.exportings body fuel (m.start p)

section
variable {body : List Stmt} {ops : Array Op} {ty : Nat → Layout} {k i j fuel : Nat} {st : Stmt}
  {s s' : State} {names : List Text} {span : Span} {a : Advance} {r : Regime}

/-!
# Where exports begin
-/

namespace Compiler

theorem exportAt_some {ip : Int} (h : exportAt body ip = some names) :
    ∃ k span, body[k]? = some (.exports span names) ∧ (start body k : Int) = ip := by
  unfold exportAt at h
  obtain ⟨k, -, hk⟩ := List.exists_of_findSome?_eq_some h
  split at hk
  · rename_i span names' hst
    split at hk
    · rename_i hstart
      cases hk
      exact ⟨k, span, hst, hstart⟩
    · cases hk
  · cases hk

theorem Sections.exportAt_inside (h : Sections body ops ty) (hst : body[k]? = some st)
    (hlow : start body k ≤ i) (hhigh : i < start body (k + 1)) (hnames : exportAt body i = some names) :
    st.isExport = true ∧ i = start body k := by
  obtain ⟨j, span, hj, hstart⟩ := exportAt_some hnames
  have hk : k < body.length := (List.getElem?_eq_some_iff.mp hst).1
  have hlt : j < body.length := (List.getElem?_eq_some_iff.mp hj).1
  have hgrows := h.grows j hlt
  obtain rfl := h.unique hk hlt hlow hhigh (by omega) (by omega)
  rw [hst] at hj
  cases hj
  exact ⟨rfl, by omega⟩

theorem Sections.exportAt_start (h : Sections body ops ty) (hst : body[k]? = some (.exports span names)) :
    exportAt body (start body k) = some names := by
  have hk : k < body.length := (List.getElem?_eq_some_iff.mp hst).1
  cases hnames : exportAt body (start body k) with
  | none =>
    unfold exportAt at hnames
    have hnone := List.findSome?_eq_none_iff.mp hnames k (List.mem_range.mpr hk)
    simp only [hst, if_true] at hnone
    cases hnone
  | some names' =>
    obtain ⟨j, span', hj, hstart⟩ := exportAt_some hnames
    have hlt : j < body.length := (List.getElem?_eq_some_iff.mp hj).1
    have hgrows := h.grows j hlt
    obtain rfl := h.unique hk hlt (Nat.le_refl _) (h.grows k hk) (by omega) (by omega)
    rw [hst] at hj
    cases hj
    rfl

end Compiler

/-!
# Exports in a run
-/

namespace State

theorem exporting_none (h : Compiler.exportAt body s.machine.ip = none) : s.exporting body = [] := by
  unfold exporting
  rw [h]
  cases s.mode <;> rfl

theorem exportings_next (h : s.advance = .next s') :
    exportings body (fuel + 1) s = s.exporting body ++ exportings body fuel s' := by
  rw [exportings, h]

theorem run_next (h : s.advance = .next s') : run (fuel + 1) s = run fuel s' := by
  rw [run, h]

/-- Straight code without exports. -/
theorem run_of_walks (h : Walks i j s s')
    (hnone : ∀ n : Nat, i ≤ n → n < j → Compiler.exportAt body n = none)
    (hrun : run fuel s = some a) :
    ∃ n ≤ fuel, run n s' = some a ∧ exportings body fuel s = exportings body n s' := by
  induction h generalizing fuel with
  | refl => exact ⟨fuel, Nat.le_refl _, hrun, rfl⟩
  | @step i j m m₁ pending s₂ hip hnext _ hwalks ih =>
    cases fuel with
    | zero => cases hrun
    | succ fuel =>
      rw [run_next hnext] at hrun
      obtain ⟨n, hn, hrun', hsame⟩ := ih (fun n hlow hhigh => hnone n (by omega) hhigh) hrun
      refine ⟨n, Nat.le_succ_of_le hn, hrun', ?_⟩
      have hquiet : exporting body ⟨m, pending, .running⟩ = [] := by
        refine exporting_none ?_
        rw [show (State.mk m pending .running).machine.ip = (i : Int) from hip]
        exact hnone i (Nat.le_refl _) hwalks.le
      rw [exportings_next hnext, hquiet, List.nil_append, hsame]

/-- The code of an export. -/
theorem run_of_export {m : Machine} {pending : List Pending} (h : Walks i j ⟨m, pending, .running⟩ s')
    (hlt : i < j) (hnames : Compiler.exportAt body i = some names)
    (hnone : ∀ n : Nat, i < n → n < j → Compiler.exportAt body n = none)
    (hrun : run fuel ⟨m, pending, .running⟩ = some a) :
    ∃ n < fuel, run n s' = some a ∧
      exportings body fuel ⟨m, pending, .running⟩ = ⟨names, m⟩ :: exportings body n s' := by
  cases h with
  | refl => exact absurd hlt (Nat.lt_irrefl _)
  | @step _ _ _ _ _ _ hip hnext _ hwalks =>
    cases fuel with
    | zero => cases hrun
    | succ fuel =>
      rw [run_next hnext] at hrun
      obtain ⟨n, hn, hrun', hsame⟩ := run_of_walks hwalks (fun n hlow => hnone n hlow) hrun
      refine ⟨n, Nat.lt_succ_of_le hn, hrun', ?_⟩
      have hthis : exporting body ⟨m, pending, .running⟩ = [⟨names, m⟩] := by
        unfold exporting
        rw [show (State.mk m pending .running).machine.ip = (i : Int) from hip, hnames]
      rw [exportings_next hnext, hthis, List.singleton_append, hsame]

/-!
# From statement to statement
-/

/-- The program itself leaves a statement that exports nothing only for the next one. -/
theorem Stays.course (h : s.Stays body k) (hst : body[k]? = some st) (hexport : st.isExport = false)
    (hsections : Compiler.Sections body ops ty) (hops : s.machine.ops = ops)
    (hlimit : ops.size ≤ Slot.limit) (hcourse : s.Course s') :
    s'.Stays body k ∨ s'.Stays body (k + 1) := by
  have hk : k < body.length := (List.getElem?_eq_some_iff.mp hst).1
  have hgrows := hsections.grows k hk
  obtain ⟨hlow, hhigh⟩ : (Compiler.start body k : Int) ≤ s.place ∧
      s.place < Compiler.start body (k + 1) := by
    cases h with
    | front _ hplace => omega
    | inside _ _ hlow hhigh => exact ⟨hlow, hhigh⟩
  have hmoved : ∀ t : Nat, s'.place = t → s'.Free → Compiler.start body k ≤ t →
      t ≤ Compiler.start body (k + 1) → s'.Stays body k ∨ s'.Stays body (k + 1) := by
    intro t ht hfree hmin hmax
    rcases Nat.lt_or_eq_of_le hmax with hlt | rfl
    · exact Or.inl (.inside hst hexport (by omega) (by omega))
    · exact Or.inr (.front hfree ht)
  cases hcourse with
  | within hplace => exact Or.inl (.inside hst hexport (hplace ▸ hlow) (hplace ▸ hhigh))
  | back hplace _ hfree => exact hmoved (s.place.toNat + 1) (by omega) hfree (by omega) (by omega)
  | @onward op n hs hop hn hplace hfree =>
    have hip := hs.place
    rw [hops] at hop
    obtain ⟨t, ht, hmin, hmax⟩ := hsections.closed k s.machine.ip.toNat op hk (by omega) (by omega) hop
    rcases hn with rfl | rfl
    · exact hmoved (s.place.toNat + 1) (hplace.trans (by show s.place + 1 = _; omega)) hfree (by omega)
        (by omega)
    · refine hmoved t (hplace.trans ?_) hfree hmin hmax
      have hlast : Compiler.start body (k + 1) ≤ ops.size := by
        rcases Nat.lt_or_eq_of_le (show k + 1 ≤ body.length from hk) with hlt | heq
        · rw [← hsections.last]
          exact Nat.le_of_lt (hsections.start_lt hlt (Nat.le_refl _))
        · rw [heq, hsections.last]
      show Number.wrapWord (s.place + 1 + op.reach) = t
      rw [show s.place + 1 + op.reach = t by omega]
      exact wrapWord_of_le (by omega)

end State

/-!
# The program itself
-/

/-- An instruction that is in no function is executed by the program itself. -/
theorem InOrder.alone {m : Machine} {pending : List Pending} (h : InOrder r ⟨m, pending, .running⟩)
    (hfloor : r.floor = none) (hip : m.ip = i) (hty : (r.ty i).inCall = false) : pending = [] ∧ m.calls = #[] := by
  cases h with
  | @running _ _ g b inCall i' hm hs hq hip' =>
    obtain rfl : i = i' := by omega
    obtain rfl : inCall = false := hq.inCall.symm.trans hty
    obtain ⟨hpending, -, hg⟩ := hs.notInCall fun h => by
      rw [hfloor] at h
      cases h
    exact ⟨hpending, hq.calls.trans (congrArg Ground.calls hg)⟩

/-- In front of a statement there are no operands, and no scope is open. -/
theorem InOrder.front {m : Machine} {pending : List Pending} (h : InOrder r ⟨m, pending, .running⟩)
    (hfloor : r.floor = none) (hip : m.ip = i) (hty : r.ty i = .top) :
    m.Stacks [] ∧ ∃ b, m.frame = some b ∧ m.world.store.Above b 0 b := by
  cases h with
  | @running _ _ g b inCall i' hm hs hq hip' =>
    obtain rfl : i = i' := by omega
    rw [hty] at hq
    obtain rfl : inCall = false := hq.inCall.symm
    obtain ⟨-, -, rfl⟩ := hs.notInCall fun h => by
      rw [hfloor] at h
      cases h
    obtain ⟨l, hl, hfill⟩ := hq.stack
    obtain ⟨f, hf, habove⟩ := hq.frame
    refine ⟨⟨hm.backed, ?_⟩, f, hf, ?_⟩
    · cases l with
      | nil => exact hl
      | cons => exact hfill.elim
    · cases habove with
      | here hb hkind => exact .here hb hkind

/-- The program itself runs in the root frame. -/
theorem InStep.root_frame {w : Watch} {m : Machine} {b : FrameId} (h : InStep w ⟨m, [], .running⟩)
    (hfloor : w.floor = none) (hcalls : m.calls = #[]) (hframe : m.frame = some b)
    (habove : m.world.store.Above b 0 b) : m.root = some b := by
  cases h with
  | @running _ _ g b' hm hs hq =>
    have hbase : g.calls = #[] := hq.calls.symm.trans hcalls
    obtain ⟨f, n, hf, hin⟩ := hq.frame
    obtain rfl : b = f := Option.some.inj (hframe.symm.trans hf)
    obtain rfl := (habove.unique hin).2
    cases hs with
    | floor h =>
      rw [hfloor] at h
      cases h
    | root _ hroot => exact hm.root.trans hroot
    | called => exact absurd hbase Array.push_ne_empty

end

/-!
# What was exported so far
-/

/-- The exports that the engine shows are what was exported: there are none if nothing was, and else a dict
with the names in the order of their first exports, each with a copy of the value that the name had in
front of the last statement that exported it. -/
structure Machine.HasExported (m : Machine) (done : List Exporting) : Prop where
  absent : m.exports? = none ↔ done = []
  present : done ≠ [] → ∃ d, m.exports? = some (.dict d) ∧
    (m.world.store.dict d).keys = exportedNames done ∧
    ∀ name m₁, lastExport done name = some m₁ → ∃ v e, m₁.resolve name = some v ∧
      (m.world.store.dict d).get? name = some e ∧ m₁.world.store.Copied m.world.store v e

/-- The dict of exports is there if something was exported, and else the hidden name is not bound. -/
inductive Store.Exports (V : Veil) (s : Store) (root : FrameId) : Bool → List Exporting → Prop
  | nothing (h : ∀ v, ¬ s.Holds root Key.exports v) : Exports V s root false []
  | something {done : List Exporting} {d : DictId} (hdone : done ≠ []) (h : s.Collects V root done d) :
    Exports V s root true done

/-- What all programs under consideration share. -/
structure Exporter (body : List Stmt) (r : Regime) (p : Program) (m : Machine) : Prop where
  valid : r.Valid
  floor : r.floor = none
  program : r.program = p
  discreet : r.library.Discreet
  sections : Compiler.Sections body r.ops r.ty
  plain : ∀ st ∈ body, st.plainTop = true
  order : ∀ s, m.Reaches p s → InOrder r s
  step : ∀ s, m.Reaches p s → ∃ w : Watch, w.floor = none ∧ InStep w s

/-- A run has come to a statement, and something was exported so far. -/
structure Exporter.Stage (body : List Stmt) (p : Program) (m : Machine) (root : FrameId) (k : Nat)
    (V : Veil) (done : List Exporting) (s : State) : Prop where
  reaches : m.Reaches p s
  veiled : s.Veiled V []
  veil : V.slot = some (root, Key.exports)
  rooted : s.machine.root = some root
  stays : s.Stays body k
  exports : s.machine.world.store.Exports V root ((body.take k).any Stmt.isExport) done

section
variable {body : List Stmt} {r : Regime} {p : Program} {m m₁ m' : Machine} {root : FrameId} {k : Nat}
  {V : Veil} {done : List Exporting} {s s' : State} {st : Stmt} {span : Span} {names : List Text}
  {first : Bool} {fuel : Nat} {v : Value}

theorem Store.Exports.spares {s s' : Store} (h : s.Exports V root first done) (hs : s.Spares V s')
    (hroot : V.slot = some (root, Key.exports)) : s'.Exports V root first done := by
  cases h with
  | nothing h => exact .nothing fun v hv => h v ((hs.bound _ hroot v).mp hv)
  | something hdone h => exact .something hdone (h.spares hs hroot)

/-- What the engine shows in the end. -/
theorem Store.Exports.shown (h : m'.world.store.Exports V root first done) (hroot : m'.root = some root) :
    m'.HasExported done := by
  have hglobal : m'.global? Key.exports =
      (m'.world.store.frame? root).bind fun fr => fr.vars.get? Key.exports := by
    unfold Machine.global?
    rw [hroot]
    rfl
  cases h with
  | nothing h =>
    have hnone : m'.exports? = none := by
      unfold Machine.exports?
      rw [hglobal]
      cases hfr : m'.world.store.frame? root with
      | none => rfl
      | some fr =>
        cases hv : fr.vars.get? Key.exports with
        | none =>
          rw [Option.bind_some, hv]
        | some v => exact absurd ⟨fr, hfr, hv⟩ (h v)
    exact ⟨⟨fun _ => rfl, fun _ => hnone⟩, fun h => absurd rfl h⟩
  | @something _ d hdone h =>
    obtain ⟨fr, hfr, hv⟩ := h.bound
    have hsome : m'.exports? = some (.dict d) := by
      unfold Machine.exports?
      rw [hglobal, hfr, Option.bind_some, hv]
    refine ⟨⟨fun hnone => ?_, fun h => absurd h hdone⟩, fun _ => ⟨d, hsome, h.keys, ?_⟩⟩
    · rw [hsome] at hnone
      cases hnone
    · intro name m₁ hlast
      obtain ⟨v, e, hv, he, hcopied, -⟩ := h.entries name m₁ hlast
      exact ⟨v, e, hv, he, hcopied⟩

namespace Exporter

theorem any_take (hst : body[k]? = some st) :
    (body.take (k + 1)).any Stmt.isExport = ((body.take k).any Stmt.isExport || st.isExport) := by
  rw [List.take_add_one, hst, List.any_append]
  simp

/-- While the program itself is in a statement that exports nothing, no code of exports is executed. -/
theorem Stage.elsewhere (h : Stage body p m root k V done s) (he : Exporter body r p m)
    (hst : body[k]? = some st) (hexport : st.isExport = false) (hmode : s.mode = .running) {i j : Nat}
    (hip : s.machine.ip = i) (hlow : Compiler.start body j ≤ i) (hhigh : i < Compiler.start body (j + 1)) :
    body[j]? ≠ some (.exports span names) := by
  intro hj
  have horder := he.order s h.reaches
  have hstays := h.stays
  obtain ⟨m₁, pending, mode⟩ := s
  obtain rfl : mode = .running := hmode
  have hcalls := (horder.alone he.floor hip (he.sections.outside he.valid.fit hj hlow hhigh)).2
  have hplace := State.Free.place (s := ⟨m₁, pending, .running⟩) ⟨rfl, hcalls⟩
  have hip : (State.mk m₁ pending .running).machine.ip = i := hip
  have hk : k < body.length := (List.getElem?_eq_some_iff.mp hst).1
  have hgrows := he.sections.grows k hk
  obtain ⟨hlow', hhigh'⟩ : Compiler.start body k ≤ i ∧ i < Compiler.start body (k + 1) := by
    cases hstays with
    | front _ hfront => omega
    | inside _ _ hlow hhigh => omega
  obtain rfl := he.sections.unique hk (List.getElem?_eq_some_iff.mp hj).1 hlow' hhigh' hlow hhigh
  rw [hst] at hj
  cases hj
  cases hexport

/-- In a statement that exports nothing nothing is exported. -/
theorem Stage.quiet (h : Stage body p m root k V done s) (he : Exporter body r p m)
    (hst : body[k]? = some st) (hexport : st.isExport = false) : s.exporting body = [] := by
  unfold State.exporting
  split
  · rename_i hmode
    split
    · rename_i names hnames
      obtain ⟨j, span, hj, hstart⟩ := Compiler.exportAt_some hnames
      exact absurd hj (h.elsewhere he hst hexport hmode hstart.symm (Nat.le_refl _)
        (he.sections.grows j (List.getElem?_eq_some_iff.mp hj).1))
    · rfl
  · rfl

/-- Tame code names the exports nowhere, and so it heeds a veil over them. -/
theorem Stage.heeds (h : Stage body p m root k V done s) {i : Nat} {op : Op}
    (htame : op.Tame ∨ Op.BindsAt r.ops i) : op.Heeds V s.machine ∨ s.machine.BindsAt V r.ops i := by
  have hother : ∀ {name : Text}, name ≠ Key.exports → ∀ g, V.slot ≠ some (g, name) := by
    intro name hname g hg
    rw [h.veil] at hg
    cases hg
    exact hname rfl
  rcases htame with htame | ⟨hmarker, name, scope, hname, htext, hassign⟩
  · refine Or.inl ?_
    cases op with
    | getVar name | bump name => exact Veil.misses_of_ne (hother htame) _ _
    | push | buildType => exact htame
    | _ => trivial
  · exact Or.inr ⟨hmarker, name, scope, fun g hg => absurd hg (hother hname g), htext, hassign⟩

/-- One transition in a statement that exports nothing. -/
theorem Stage.next (h : Stage body p m root k V done s) (he : Exporter body r p m)
    (hst : body[k]? = some st) (hexport : st.isExport = false) (hnext : s.advance = .next s') :
    Stage body p m root k V done s' ∨ Stage body p m root (k + 1) V done s' := by
  have horder := he.order s h.reaches
  have hops : s.machine.ops = r.ops := horder.sane.decoded
  have hcourse := horder.course he.valid he.floor
  have hspares := h.veiled.advance he.valid he.floor horder he.discreet (fun hmode i op hip hop => by
    obtain ⟨j, hj, hlow, hhigh⟩ := he.sections.find (Array.getElem?_eq_some_iff.mp hop).1
    have hstmt := List.getElem?_eq_getElem hj
    refine h.heeds (he.sections.tame j i body[j] op hstmt ?_ hlow hhigh hop)
    cases hkind : body[j] with
    | exports => exact absurd (hkind ▸ hstmt) (h.elsewhere he hst hexport hmode hip hlow hhigh)
    | _ => rfl) fun _ _ => rfl
  rw [hnext] at hcourse hspares
  have hstage : ∀ {k'}, s'.Stays body k' →
      (body.take k').any Stmt.isExport = (body.take k).any Stmt.isExport →
      Stage body p m root k' V done s' := by
    intro k' hstays hsame
    refine ⟨h.reaches.step hnext, hspares.veiled, h.veil, hspares.root.trans h.rooted, hstays, ?_⟩
    rw [hsame]
    exact h.exports.spares hspares.store h.veil
  rcases h.stays.course hst hexport he.sections hops he.valid.limit hcourse with hstays | hstays
  · exact Or.inl (hstage hstays rfl)
  · refine Or.inr (hstage hstays ?_)
    rw [any_take hst, hexport, Bool.or_false]

/-- What is known in front of a statement. -/
theorem Stage.front (h : Stage body p m root k V done s) (he : Exporter body r p m)
    (hfree : s.Free) (hplace : s.place = Compiler.start body k) (hk : k ≤ body.length) :
    s = ⟨s.machine, [], .running⟩ ∧ s.machine.ip = Compiler.start body k ∧ s.machine.Stacks [] ∧
      s.machine.frame = some root ∧ s.machine.Veiled V := by
  have horder := he.order s h.reaches
  have hip := hfree.place.symm.trans hplace
  have htop := he.sections.top k hk
  obtain ⟨w, hfloor, hstep⟩ := he.step s h.reaches
  have hrooted := h.rooted
  have hbinds := h.veiled.machine
  obtain ⟨m₁, pending, mode⟩ := s
  obtain ⟨rfl, hcalls⟩ : mode = .running ∧ m₁.calls = #[] := hfree
  obtain ⟨rfl, -⟩ := horder.alone he.floor hip (congrArg Layout.inCall htop)
  obtain ⟨hstacks, b, hframe, habove⟩ := horder.front he.floor hip htop
  have hroot := hstep.root_frame hfloor hcalls hframe habove
  refine ⟨rfl, hip, hstacks, hframe.trans (hroot.symm.trans hrooted), ?_⟩
  cases hbinds with
  | none h => exact h
  | marked h =>
    have hitems := h.items.symm.trans hstacks.items
    cases hitems
  | named h =>
    have hitems := h.items.symm.trans hstacks.items
    cases hitems

/-- An export adds its names, if the run ends well. -/
theorem Stage.export (h : Stage body p m root k V done s) (he : Exporter body r p m)
    (hst : body[k]? = some (.exports span names))
    (hrun : State.run fuel s = some (.finished (.ok v) m')) :
    ∃ n < fuel, ∃ V' s', State.run n s' = some (.finished (.ok v) m') ∧
      State.exportings body fuel s = ⟨names, s.machine⟩ :: State.exportings body n s' ∧
      Stage body p m root (k + 1) V' (done ++ [⟨names, s.machine⟩]) s' := by
  have hk : k < body.length := (List.getElem?_eq_some_iff.mp hst).1
  have hsane := (he.order s h.reaches).sane
  have hprogram : s.machine.program = some p := hsane.runs.trans (congrArg some he.program)
  have hfree : s.Free ∧ s.place = Compiler.start body k := by
    cases h.stays with
    | front hfree hplace => exact ⟨hfree, hplace⟩
    | inside hst' hexport =>
      rw [hst] at hst'
      cases hst'
      cases hexport
  obtain ⟨hs, hip, hstacks, hframe, hveiled⟩ := h.front he hfree.1 hfree.2 (Nat.le_of_lt hk)
  have hat := Machine.At.self hstacks hip
  obtain ⟨hspelled, hlen⟩ := he.sections.spelled k span names hst
  have hnames : ∀ name ∈ names, name ≠ Key.exports := by
    have hplain : names.all (· != Key.exports) = true := he.plain _ (List.mem_of_getElem? hst)
    intro name hname
    exact bne_iff_ne.mp (List.all_eq_true.mp hplain name hname)
  have hlast : Compiler.start body (k + 1) ≤ p.size := by
    rw [← he.program, he.valid.size, ← he.sections.last]
    rcases Nat.lt_or_eq_of_le (show k + 1 ≤ body.length from hk) with hlt | heq
    · exact Nat.le_of_lt (he.sections.start_lt hlt (Nat.le_refl _))
    · rw [heq]
  have hfirst : if (!(body.take k).any Stmt.isExport) = true then done = []
      else ∃ d, s.machine.world.store.Collects V root done d := by
    have hexports := h.exports
    generalize (body.take k).any Stmt.isExport = first at hexports
    cases hexports with
    | nothing => rfl
    | something _ hcollects => exact ⟨_, hcollects⟩
  have hcode := Machine.exports_all hprogram hveiled hframe h.veil (i := Compiler.start body k)
    (hlen ▸ hlast) (hsane.decoded ▸ hspelled) hnames hfirst
  rw [← hlen] at hcode
  rcases hcode with ⟨s₁, V', d, hpasses, haside, hcollects⟩ | ⟨f, j, s₁, hbreaks⟩
  · obtain ⟨m₂, hat', hwalks⟩ := hpasses [] _ hat
    have hgrows := he.sections.grows k hk
    have hnone : ∀ n : Nat, Compiler.start body k < n → n < Compiler.start body (k + 1) →
        Compiler.exportAt body n = none := by
      intro n hlow hhigh
      cases hn : Compiler.exportAt body n with
      | none => rfl
      | some names' =>
        have := (he.sections.exportAt_inside hst (Nat.le_of_lt hlow) hhigh hn).2
        omega
    rw [hs] at hrun
    obtain ⟨n, hn, hrun', hexportings⟩ :=
      State.run_of_export hwalks hgrows (he.sections.exportAt_start hst) hnone hrun
    have hcalls : m₂.calls = #[] := hat'.calls.trans hfree.1.2
    refine ⟨n, hn, V', ⟨m₂, [], .running⟩, hrun', by rw [hs]; exact hexportings, ?_⟩
    refine ⟨(hs ▸ h.reaches).trans hwalks.leads, ⟨.none (haside.veiled_at hveiled hat'), ?_, trivial⟩,
      haside.slot.trans h.veil, hat'.root.trans h.rooted, .front ⟨rfl, hcalls⟩ ?_, ?_⟩
    · exact .base
    · exact (State.Free.place ⟨rfl, hcalls⟩).trans hat'.ip_eq
    · rw [any_take hst]
      show m₂.world.store.Exports V' root (_ || true) _
      rw [Bool.or_true, hat'.store]
      exact .something (by simp) hcollects
  · obtain ⟨m₂, l', -, hleads⟩ := hbreaks [] _ hat
    obtain ⟨n, hfails⟩ := hleads.run (n := 1) rfl
    rw [hs] at hrun
    cases State.run_unique hrun hfails

/-- Behind the last statement the run ends. -/
theorem Stage.ends (h : Stage body p m root body.length V done s) (he : Exporter body r p m)
    (hrun : State.run fuel s = some (.finished (.ok v) m')) :
    State.exportings body fuel s = [] ∧ m' = s.machine := by
  have hsane := (he.order s h.reaches).sane
  have hprogram : s.machine.program = some p := hsane.runs.trans (congrArg some he.program)
  have hfree : s.Free ∧ s.place = Compiler.start body body.length := by
    cases h.stays with
    | front hfree hplace => exact ⟨hfree, hplace⟩
    | inside hst =>
      rw [List.getElem?_eq_none (Nat.le_refl _)] at hst
      cases hst
  obtain ⟨hs, hip, -⟩ := h.front he hfree.1 hfree.2 (Nat.le_refl _)
  have hsize : (p.size : Int) ≤ s.machine.ip := by
    rw [hip, he.sections.last, ← he.valid.size, he.program]
  have hnext : s.advance = .next ⟨s.machine, [], .delivering (.ok .null)⟩ := by
    rw [hs]
    unfold State.advance State.execute
    simp only [hprogram, hsize, if_true, hfree.1.2]
    rfl
  have hquiet : s.exporting body = [] := by
    refine State.exporting_none ?_
    cases hnames : Compiler.exportAt body s.machine.ip with
    | none => rfl
    | some names =>
      obtain ⟨j, span, hj, hstart⟩ := Compiler.exportAt_some hnames
      have := he.sections.start_lt (List.getElem?_eq_some_iff.mp hj).1 (Nat.le_refl _)
      omega
  cases fuel with
  | zero => cases hrun
  | succ fuel =>
    rw [State.run_next hnext] at hrun
    rw [State.exportings_next hnext, hquiet, List.nil_append]
    cases fuel with
    | zero => cases hrun
    | succ fuel =>
      cases hrun
      exact ⟨rfl, rfl⟩

/-- From any stage on, the engine shows in the end what was exported before and since. -/
theorem Stage.exported (he : Exporter body r p m) (hk : k ≤ body.length)
    (h : Stage body p m root k V done s) (hrun : State.run fuel s = some (.finished (.ok v) m')) :
    m'.HasExported (done ++ State.exportings body fuel s) := by
  induction fuel using Nat.strongRecOn generalizing k V done s with
  | _ fuel ih =>
    rcases Nat.lt_or_eq_of_le hk with hlt | rfl
    · have hst := List.getElem?_eq_getElem hlt
      cases hexport : body[k].isExport with
      | true =>
        obtain ⟨span, names, hkind⟩ : ∃ span names, body[k] = .exports span names := by
          cases hkind : body[k] with
          | exports span names => exact ⟨span, names, rfl⟩
          | _ =>
            rw [hkind] at hexport
            cases hexport
        obtain ⟨n, hn, V', s', hrun', hexportings, hstage⟩ := h.export he (hkind ▸ hst) hrun
        rw [hexportings, ← List.singleton_append, ← List.append_assoc]
        exact ih n hn hlt hstage hrun'
      | false =>
        have hquiet := h.quiet he hst hexport
        cases fuel with
        | zero => cases hrun
        | succ fuel =>
          cases hnext : s.advance with
          | next s' =>
            rw [State.run_next hnext] at hrun
            rw [State.exportings_next hnext, hquiet, List.nil_append]
            rcases h.next he hst hexport hnext with hstage | hstage
            · exact ih fuel (Nat.lt_succ_self _) hk hstage hrun
            · exact ih fuel (Nat.lt_succ_self _) hlt hstage hrun
          | finished o m₁ =>
            have hend := hrun
            rw [State.run, hnext] at hend
            cases hend
            rw [State.exportings, hnext, hquiet, List.append_nil, List.append_nil]
            have hmachine := congrArg State.machine (State.advance_finished hnext)
            have hrooted := h.rooted
            have hexports := h.exports
            rw [hmachine] at hrooted hexports
            exact hexports.shown hrooted
          | crashed message m₁ =>
            rw [State.run, hnext] at hrun
            cases hrun
    · obtain ⟨hnothing, rfl⟩ := h.ends he hrun
      rw [hnothing, List.append_nil]
      exact h.exports.shown h.rooted

/-- Nothing was exported at the beginning of a program. -/
theorem Stage.start (he : Exporter body r p m) (hstore : m.world.store.Veiled .clear)
    (hbindings : m.library.bindings.Every (m.world.store.Shows .clear)) :
    Stage body p m m.world.store.frames.size 0 (.exports m.world.store.frames.size) []
      (m.start p) := by
  obtain ⟨j, hj⟩ := m.loaded_eq p
  have hveiled := hstore.newRoot m.options.rootName
  have hle : m.world.store.Le (m.world.store.newRoot m.options.rootName).2 :=
    (Store.Intact.newFrame m.world.store _).le
  refine ⟨.refl, Machine.start_veiled hveiled (hbindings.imp fun v hv => ⟨hv.has.mono hle, hv.shown⟩), rfl, ?_,
    .front ⟨rfl, ?_⟩ ?_, ?_⟩
  · show (m.loaded p).root = _
    rw [hj]
    rfl
  · show (m.loaded p).calls = _
    rw [hj]
  · rw [he.sections.first]
    show CallRecord.outermost (m.loaded p).calls (m.loaded p).ip = _
    rw [hj]
    rfl
  · show (m.loaded p).world.store.Exports _ _ false []
    rw [hj]
    refine .nothing fun v hv => ?_
    obtain ⟨fr, hfr, hv⟩ := hv
    obtain rfl := Option.some.inj ((Store.newFrame_frame? m.world.store ⟨Table.empty, none,
      .boundary m.options.rootName none none Text.empty⟩).symm.trans hfr)
    cases hv

end Exporter

/-- Exports are exactly what was exported: after a program whose exports stand at the top level has ended
well, the engine shows no exports if no export was executed. Otherwise it shows a dict of the exported
names, in the order in which they were exported first, each with a copy of the value that it had when it
was exported last. -/
theorem exports_are_what_was_exported {c : Compiler.Compiled}
    (hcompiled : (Compiler.compile .modules false body).result = .ok c)
    (hplain : ∀ st ∈ body, st.plainTop = true) (hsize : c.program.size ≤ Slot.limit)
    (hstore : m.world.store.Veiled .clear)
    (hbindings : m.library.bindings.Every (m.world.store.Shows .clear))
    (hfresh : m.world.store.closures = #[]) (hcalls : m.library.CallsOnly)
    (hdiscreet : m.library.Discreet) (hrun : m.execute fuel c.program = some (.value v, m')) :
    m'.HasExported (m.exportings fuel body c.program) := by
  obtain ⟨ops, ty, hops, hlen, hfit, hsections⟩ := Compiler.compile_sections hcompiled hsize hplain
  have hr : Regime.Valid ⟨c.program, ops, ty, m.library, False, fun _ => True, none, True, False⟩ :=
    ⟨hfit, hlen.symm, hlen ▸ hsize, hcalls, fun h => h.elim⟩
  have hstart := Machine.start_inOrder (m := m) hr rfl rfl (by rw [hops]) rfl hfresh (fun h => h.elim)
    fun h => h.elim
  have he : Exporter body ⟨c.program, ops, ty, m.library, False, fun _ => True, none, True, False⟩
      c.program m := by
    refine ⟨hr, rfl, rfl, hdiscreet, hsections, hplain, fun s hs => hs.inOrder hr rfl hstart, ?_⟩
    intro s hs
    refine ⟨Watch.whole m c.program fun _ => True, rfl, ?_⟩
    exact Machine.Reaches.inStep (Watch.whole_sound hcalls fun _ => trivial) (fun _ _ _ => trivial) hs
  rw [Machine.execute_eq hops] at hrun
  cases hlast : State.run fuel (m.start c.program) with
  | none =>
    rw [hlast] at hrun
    cases hrun
  | some a =>
    rw [hlast] at hrun
    cases a with
    | next s => cases hrun
    | finished o m₁ =>
      cases o with
      | error f =>
        have hends := congrArg Prod.fst (Option.some.inj hrun)
        rw [Machine.endFaulty_eq] at hends
        cases hends
      | ok v' =>
        have hshown := (Exporter.Stage.start he hstore hbindings).exported he (Nat.zero_le _) hlast
        rw [List.nil_append] at hshown
        have hm' : m' = (m₁.endWell v').2 := congrArg Prod.snd (Option.some.inj hrun.symm)
        obtain ⟨j, hj⟩ := m₁.tell_eq .debug fun m => "run finished with " ++ m.world.store.repr v'
        rw [hm', show (m₁.endWell v').2 = m₁.withJournal j from hj]
        exact ⟨hshown.absent, hshown.present⟩
    | crashed message m₁ => cases hrun

end

/-!
# A program that exports
-/

/-- The program `a = [1]; export a; relay(func() { a = 2 }); b = a; export b, a`. -/
def exportingTwice : List Stmt :=
  [.expr .zero (.assign .zero (.var .zero "a") (.list .zero [.number .zero 1]) .nearest),
    .exports .zero ["a"],
    .expr .zero (.call .zero (.var .zero "relay") [.func .zero Text.empty []
      (.mk .zero [.expr .zero (.assign .zero (.var .zero "a") (.number .zero 2) .outer)])]),
    .expr .zero (.assign .zero (.var .zero "b") (.var .zero "a") .nearest),
    .exports .zero ["b", "a"]]

/-- Whether an ending is a value. -/
def Ending.endsWell : Ending → Bool
  | .value _ => true
  | .failed .. => false

theorem exports_are_what_was_exported_twice :
    ∃ c v m', (Compiler.compile .modules false exportingTwice).result = .ok c ∧
      relayEngine.execute 100 c.program = some (.value v, m') ∧
      (relayEngine.exportings 100 exportingTwice c.program).map Exporting.names =
        ([["a"], ["b", "a"]] : List (List Text)) ∧
      m'.HasExported (relayEngine.exportings 100 exportingTwice c.program) := by
  obtain ⟨c, hcompiled, hsize, hends, hnames⟩ :
      ∃ c, (Compiler.compile .modules false exportingTwice).result = .ok c ∧
        c.program.size ≤ Slot.limit ∧
        (relayEngine.execute 100 c.program).any (fun r => r.1.endsWell) = true ∧
        (relayEngine.exportings 100 exportingTwice c.program).map Exporting.names =
          ([["a"], ["b", "a"]] : List (List Text)) :=
    ⟨_, rfl, by decide +kernel, by decide +kernel, by decide +kernel⟩
  obtain ⟨⟨ending, m'⟩, hrun, hwell⟩ := (Option.any_eq_true _ _).mp hends
  cases ending with
  | failed => cases hwell
  | value v =>
    exact ⟨c, v, m', hcompiled, hrun, hnames,
      exports_are_what_was_exported hcompiled (by decide +kernel) hsize Store.veiled_empty
        (Library.relaying_bindings_shown _ _) rfl Library.relaying_callsOnly Library.relaying_discreet
        hrun⟩

/-!
# A type without a name
-/

/-- A program that exports `a`, and in which the exports are a method of a type without a name:
`type {}; x = (); a = 1; export a; x["$exports"]["junk"] = 2`, where `()` calls the type. -/
def exportingBesides : List Stmt :=
  [.typeDef .zero Text.empty [],
    .expr .zero (.assign .zero (.var .zero "x") (.call .zero (.var .zero Text.empty) []) .nearest),
    .expr .zero (.assign .zero (.var .zero "a") (.number .zero 1) .nearest),
    .exports .zero ["a"],
    .expr .zero (.assign .zero (.index .zero
      (.index .zero (.var .zero "x") (.text .zero "$exports")) (.text .zero "junk"))
      (.number .zero 2) .nearest)]

/-- The keys of the exports that the engine shows. -/
def Machine.exportedKeys (m : Machine) : List Text :=
  match m.exports? with
  | some (.dict d) => (m.world.store.dict d).keys
  | _ => []

/-- In the end the exports have a key that was not exported. -/
theorem exports_besides_what_was_exported :
    ∃ c v m', (Compiler.compile .modules false exportingBesides).result = .ok c ∧ c.problems = [] ∧
      standardEngine.execute 100 c.program = some (.value v, m') ∧
      ¬ m'.HasExported (standardEngine.exportings 100 exportingBesides c.program) := by
  obtain ⟨c, hcompiled, hnone, hends, hnames⟩ :
      ∃ c, (Compiler.compile .modules false exportingBesides).result = .ok c ∧ c.problems = [] ∧
        (standardEngine.execute 100 c.program).any (fun r => r.1.endsWell &&
          r.2.exportedKeys == (["a", "junk"] : List Text)) = true ∧
        exportedNames (standardEngine.exportings 100 exportingBesides c.program) =
          (["a"] : List Text) :=
    ⟨_, rfl, rfl, by decide +kernel, by decide +kernel⟩
  obtain ⟨⟨ending, m'⟩, hrun, hwell⟩ := (Option.any_eq_true _ _).mp hends
  obtain ⟨hwell, hkeys⟩ := Bool.and_eq_true_iff.mp hwell
  cases ending with
  | failed => cases hwell
  | value v =>
    refine ⟨c, v, m', hcompiled, hnone, hrun, fun hexported => ?_⟩
    have hsome : standardEngine.exportings 100 exportingBesides c.program ≠ [] := by
      intro hnil
      rw [hnil] at hnames
      cases hnames
    obtain ⟨d, hd, hdict, -⟩ := hexported.present hsome
    have hshown : m'.exportedKeys = (["a"] : List Text) := by
      unfold Machine.exportedKeys
      rw [hd]
      exact hdict.trans hnames
    have hkeys : m'.exportedKeys = (["a", "junk"] : List Text) := beq_iff_eq.mp hkeys
    rw [hshown] at hkeys
    exact absurd (congrArg List.length hkeys) (by decide)

end ScriptEngine
