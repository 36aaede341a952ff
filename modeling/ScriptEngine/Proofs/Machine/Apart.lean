import ScriptEngine.Proofs.Machine.Keeping
import ScriptEngine.Proofs.Machine.VeiledRuns

/-!
# Stretches that spare an iterator

The iterator of a loop is bound under a name that all loops share. Where iterators are kept apart, an
activation reads and binds this name in its innermost scope only, after a loop has bound it there. So a
stretch of a run that begins inside a loop never comes across the iterator of that loop, whatever is called
in between, and finds it as it was.
-/

namespace ScriptEngine

/-- The hidden binding, if there is one, is that of the iterator of a loop at or outside the base. -/
def Veil.Around (V : Veil) (base : FrameId) : Prop :=
  ∀ e, V.slot = some e → e.2 = Compiler.hiddenIter ∧ e.1 ≤ base

/-- Where the stretch ends nothing is being bound. -/
def Op.Fitted.Rests (code : Op.Fitted) (stop : Nat → Prop) : Prop :=
  ∀ i, stop i → (code.ty i).live = true → Slot.marker ∉ (code.ty i).slots

/-- Iterators are kept apart, and markers are the only values but constants that operations push. -/
structure Op.Fitted.Parts (code : Op.Fitted) (u : Usage) : Prop where
  apart : u.apart = true
  iterators : u.name Compiler.hiddenIter = false
  constants : ∀ (i : Nat) v, code.ops[i]? = some (.push v) → v = .empty ∨ v.Constant

section
variable {V : Veil} {u : Usage} {code : Op.Fitted} {p : Program} {m m₁ : Machine} {stop : Nat → Prop}
  {base g : FrameId} {a : Mark} {op : Op} {i : Nat} {v : Value}

/-!
# Constants
-/

theorem Instruction.Reads.constant {ins : Instruction} (h : ins.Reads (.push v)) : v = .empty ∨ v.Constant := by
  obtain ⟨o, hread, hop⟩ := Option.map_eq_some_iff.mp h
  unfold Op.ofOperand at hop
  unfold Op.Operand.read? Opcode.operandKind at hread
  cases hkind : ins.op.operation? with
  | none =>
    rw [hkind] at hop
    cases hop
  | some operation =>
    rw [hkind] at hop hread
    cases operation with
    | pushNumber =>
      cases hop
      obtain ⟨x, -, rfl⟩ := Option.map_eq_some_iff.mp hread
      exact Or.inr trivial
    | pushBoolean =>
      cases hop
      obtain ⟨b, -, rfl⟩ := Option.map_eq_some_iff.mp hread
      exact Or.inr trivial
    | pushString =>
      cases hop
      cases hread
      exact Or.inr trivial
    | pushType =>
      cases hop
      cases hread
      exact Or.inr rfl
    | pushNull =>
      cases hop
      exact Or.inr trivial
    | pushEmpty =>
      cases hop
      exact Or.inl rfl
    | _ => cases hop

namespace Op

/-- Where a marker lies on top the code goes on. -/
theorem Follows.goes_on (h : Follows u code.ty code.ops stop i a) (hrests : code.Rests stop)
    (hi : i ≤ code.ops.size) (hslots : Slot.marker ∈ (code.ty i).slots) :
    ¬ stop i ∧ ∃ op, code.ops[i]? = some op := by
  refine ⟨fun hstop => hrests i hstop h.live hslots, ?_⟩
  rcases Nat.lt_or_eq_of_le hi with hlt | rfl
  · exact ⟨_, Array.getElem?_eq_getElem hlt⟩
  · rw [code.fit.stop] at hslots
    exact absurd hslots List.not_mem_nil

/-- Behind a marker stand the name that is bound and its assignment. -/
theorem Follows.binds (h : Follows u code.ty code.ops stop i a) (hrests : code.Rests stop)
    (hstop : ¬ stop i) (hop : code.ops[i]? = some (.push .empty)) :
    ∃ t scope, code.ops[i + 1]? = some (.push (.text t)) ∧ code.ops[i + 2]? = some (.assign scope) ∧
      u.Binds scope t a.scopes := by
  have hlt := (Array.getElem?_eq_some_iff.mp hop).1
  obtain ⟨-, hnext⟩ := h.step code.fit hstop hop
  have hnext : Follows u code.ty code.ops stop (i + 1) ⟨a.scopes, .marker⟩ := by
    have hstage : a.stage.push .empty = .marker := by cases a.stage <;> rfl
    rw [← hstage]
    exact hnext
  obtain ⟨rest, hslots, -⟩ := hnext.agrees
  obtain ⟨hstop₁, op₁, hop₁⟩ := hnext.goes_on hrests hlt (by rw [hslots]; exact List.mem_cons_self)
  obtain ⟨hallowed₁, hnext₁⟩ := hnext.step code.fit hstop₁ hop₁
  obtain ⟨t, rfl⟩ : ∃ t, op₁ = .push (.text t) := by
    cases op₁ with
    | push v =>
      cases v with
      | text t => exact ⟨t, rfl⟩
      | _ => exact absurd hallowed₁ id
    | _ => exact absurd hallowed₁ id
  have hnext₁ : Follows u code.ty code.ops stop (i + 2) ⟨a.scopes, .named t⟩ := hnext₁
  obtain ⟨x, rest₁, hslots₁, -⟩ := hnext₁.agrees
  obtain ⟨hstop₂, op₂, hop₂⟩ := hnext₁.goes_on hrests (Array.getElem?_eq_some_iff.mp hop₁).1
    (by rw [hslots₁]; exact List.mem_cons_of_mem _ List.mem_cons_self)
  obtain ⟨hallowed₂, -⟩ := hnext₁.step code.fit hstop₂ hop₂
  cases op₂ with
  | assign scope => exact ⟨t, scope, hop₁, hop₂, hallowed₂⟩
  | _ => exact absurd hallowed₂ id

/-- A name that the innermost of the scopes inside the base binds is not found where it is hidden. -/
theorem Upholds.misses {name : Text} (h : Upholds u code.ty code.ops stop base m.world.store m.stack i a g)
    (haround : V.Around base) (hframe : m.frame = some g) {names : List Text} {l : List (List Text)}
    (hscopes : a.scopes = names :: l) (hname : name ∈ names) : V.Misses m.world.store m.frame name := by
  have hbears := h.bears
  rw [hscopes] at hbears
  rw [hframe]
  refine Store.misses_of_binds (hbears.head name hname) fun hslot => ?_
  exact Nat.not_le_of_lt hbears.base_lt (haround _ hslot).2

/-- An instruction of an activation that keeps iterators apart heeds a veil over an iterator around it. -/
theorem Upholds.heeds (h : Upholds u code.ty code.ops stop base m.world.store m.stack i a g)
    (hparts : code.Parts u) (haround : V.Around base) (hrests : code.Rests stop) (hframe : m.frame = some g)
    (hstop : ¬ stop i) (hop : code.ops[i]? = some op) : op.Heeds V m ∨ m.BindsAt V code.ops i := by
  obtain ⟨hallowed, -⟩ := h.follows.step code.fit hstop hop
  obtain ⟨scopes, stage⟩ := a
  cases op with
  | push v =>
    rcases hparts.constants i v hop with rfl | hv
    · obtain ⟨t, scope, hname, hassign, -, hbinds⟩ := h.follows.binds hrests hstop hop
      refine Or.inr ⟨hop, t, scope, fun f hslot => ?_, hname, hassign⟩
      obtain ⟨rfl, hle⟩ := haround _ hslot
      rcases hbinds with hyes | ⟨-, names, l, hscopes, hin⟩
      · rw [hparts.iterators] at hyes
        cases hyes
      · have hbears := h.bears
        rw [hscopes] at hbears
        refine ⟨g, hframe, fun heq => ?_, hin.imp_right (And.imp_right fun hmem => hbears.head _ hmem)⟩
        exact Nat.not_le_of_lt hbears.base_lt (heq ▸ hle)
    · exact Or.inl hv
  | getVar name =>
    cases stage with
    | marker | named => exact absurd hallowed id
    | idle =>
      refine Or.inl ?_
      by_cases hname : name = Compiler.hiddenIter
      · obtain ⟨names, l, hscopes, hmem⟩ := hallowed hparts.apart hname
        exact h.misses haround hframe hscopes hmem
      · exact Veil.misses_of_ne (fun f hslot => hname (haround _ hslot).1) _ _
  | bump name up =>
    cases stage with
    | marker | named => exact absurd hallowed id
    | idle =>
      obtain ⟨names, l, hscopes, hmem⟩ := hallowed
      exact Or.inl (h.misses haround hframe hscopes hmem)
  | buildType name =>
    cases stage with
    | marker | named => exact absurd hallowed id
    | idle => exact Or.inl (hallowed hparts.apart)
  | _ => exact Or.inl trivial

end Op
end

/-!
# Runs
-/

/-- The runs of the program on the engine are in order, names are used as agreed, iterators are kept apart,
and nothing is hidden in the engine. -/
structure Regime.Separates (r : Regime) (u : Usage) (p : Program) (code : Op.Fitted) (m : Machine) : Prop
    extends r.Governs u p code m where
  parts : code.Parts u
  discreet : r.library.Discreet
  veiled : m.world.store.Veiled .clear
  bindings : m.library.bindings.Every (m.world.store.Shows .clear)

section
variable {V : Veil} {u : Usage} {code : Op.Fitted} {p : Program} {m m₁ : Machine} {r : Regime}
  {stop : Nat → Prop} {base b f : FrameId} {i j low k : Nat} {g : Base} {pending : List Pending} {s e : State}

theorem Veil.around_clear (base : FrameId) : Veil.clear.Around base :=
  fun _ h => by cases h

theorem Op.Fitted.rests_never (code : Op.Fitted) : code.Rests fun _ => False :=
  fun _ h => h.elim

/-- Programs have names for their record types and come across nothing but values, and no dict gets a key
twice. -/
theorem Regime.Separates.clear (hr : r.Separates u p code m) (hreaches : m.Reaches p s) :
    s.Veiled .clear [] ∧ (m.world.store.Distinct → s.machine.world.store.Distinct) := by
  have hle : m.world.store.Le (m.world.store.newRoot m.options.rootName).2 :=
    (Store.Intact.newFrame m.world.store _).le
  have hroot : (m.world.store.newRoot m.options.rootName).2.Veiled .clear :=
    (@Store.Veiled.newFrame _ _ hr.veiled ⟨Table.empty, none, .boundary m.options.rootName none none Text.empty⟩
      .empty).veiled
  induction hreaches with
  | refl =>
    refine ⟨Machine.start_veiled hroot (hr.bindings.imp fun v hv => ⟨hv.has.mono hle, hv.shown⟩),
      fun hdistinct => ?_⟩
    obtain ⟨j, hj⟩ := m.loaded_eq p
    show (m.loaded p).world.store.Distinct
    rw [hj]
    exact hdistinct.of_same rfl
  | @step s s' hreaches hnext ih =>
    have husage := hr.usage hreaches
    have hspares := ih.1.advance hr.valid hr.whole (hr.order hreaches) hr.discreet (fun hmode i op hip hop => ?_)
      fun _ _ => rfl
    · rw [hnext] at hspares
      exact ⟨hspares.veiled, fun hdistinct => hspares.store.distinct (ih.2 hdistinct)⟩
    · cases husage with
      | @running m₁ pending g b hm hs hq hgoes =>
        obtain ⟨i', a, f, hip', hframe, hupholds⟩ := hgoes
        obtain rfl : i' = i := Int.ofNat.inj (hip'.symm.trans hip)
        rw [hr.ops] at hop ⊢
        exact hupholds.heeds hr.parts (Veil.around_clear b) code.rests_never hframe id hop
      | _ => cases hmode

/-- A transition of a stretch spares what is hidden around it. -/
theorem InStep.stretch_spares (hr : r.Separates u p code m) (horder : InOrder r s)
    (hs : InStep (Watch.stretch u p code m pending g b base low stop) s)
    (hstay : ¬ (Watch.stretch u p code m pending g b base low stop).Leaves s)
    (hopen : ¬ s.Left pending k) (haround : V.Around base) (hlow : base < low) (hrests : code.Rests stop)
    (hveiled : s.Veiled V pending) : s.advance.Spares V pending s.machine := by
  refine hveiled.advance hr.valid hr.whole horder hr.discreet (fun hmode i op hip hop => ?_)
    fun hmode hpending => ?_
  · obtain ⟨m₁, rest, mode⟩ := s
    obtain rfl : mode = .running := hmode
    obtain ⟨B, stop', ⟨i', a, f, hip', hframe, hupholds⟩, hstop, hstops, hB⟩ := hs.stretch_going hstay
    obtain rfl : i' = i := Int.ofNat.inj (hip'.symm.trans hip)
    have hbase : base ≤ B := hB.elim (fun h => Nat.le_of_eq h.symm) fun h =>
      Nat.le_of_lt (Nat.lt_of_lt_of_le hlow h)
    rw [hr.ops] at hop ⊢
    exact hupholds.heeds hr.parts (fun e he => ⟨(haround e he).1, Nat.le_trans (haround e he).2 hbase⟩)
      (fun i hi => hrests i (hstops i hi)) hframe (hstop i' hip') hop
  · exact absurd ⟨hpending, fun h => absurd h hmode⟩ hopen

/-- A stretch spares what is hidden around it. -/
theorem State.Comes.spares (hr : r.Separates u p code m) (hk : g.calls.size = k) (haround : V.Around base)
    (hlow : base < low) (hrests : code.Rests stop) (hreaches : m.Reaches p s)
    (hs : InStep (Watch.stretch u p code m pending g b base low stop) s) (hveiled : s.Veiled V pending)
    (h : s.Comes pending k stop e) :
    e.Veiled V pending ∧ s.machine.world.store.Spares V e.machine.world.store := by
  induction h with
  | here => exact ⟨hveiled, hveiled.store.refl⟩
  | on hnot hopen hnext h ih =>
    have hstay := h.not_leaves hnot hopen hnext (w := Watch.stretch u p code m pending g b base low stop)
      rfl hk fun _ h => h
    have hnext' := advance_inStep (Watch.stretch_sound hr.natives hr.limit) hs hstay
    have hspares := hs.stretch_spares hr (hr.order hreaches) hstay hopen haround hlow hrests hveiled
    rw [hnext] at hnext' hspares
    obtain ⟨hend, hrest⟩ := ih (hreaches.step hnext) hnext' hspares.veiled
    exact ⟨hend, hspares.store.trans hrest⟩

end
end ScriptEngine
