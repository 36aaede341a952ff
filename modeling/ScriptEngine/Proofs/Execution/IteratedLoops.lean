import ScriptEngine.Proofs.Execution.CountedLoops
import ScriptEngine.Proofs.Machine.Iterations

/-!
# Loops over a source

A loop over a list visits its positions one after the other, each element as the list has it when the loop
takes its step there. A loop over a dict visits the keys that the dict had when the loop began. Nothing that
the body does changes that, since it never comes across the iterator of the loop.
-/

namespace ScriptEngine

/-- The loop over a source that an entry of the debug table belongs to; the source has an entry of its own. -/
structure EachSite.Of (site : EachSite) (p : Program) (e : DebugEntry) : Prop where
  stop : e.stop = (site.stop : Nat)
  length : e.length = (site.stop : Nat) - (site.start : Nat)
  source : ∃ d ∈ p.debug, d.stop = (site.given : Nat) ∧ d.length = (site.given : Nat) - (site.start + 2 : Nat)
  written : site.Written (Op.ofProgram p).ops

namespace State

/-- Where the loop takes its next step, with `i` rounds behind it: behind the source, or where a round has
ended normally or by `continue`. -/
inductive AtStep (site : EachSite) (pending : List Pending) (k : Nat) (s : State) : Nat → State → Prop
  | first : AtStep site pending k s 0 s
  | next {i : Nat} {a b e : State} (h : AtStep site pending k s i a) (hturn : a.Comes pending k site.Turns b)
    (hinside : b.machine.ip = site.inside) (hbody : b.Comes pending k site.Ends e)
    (hagain : e.machine.ip = site.again) : AtStep site pending k s (i + 1) e

/-- The body begins in a new scope inside the frame, which binds a copy of the value and nothing else. -/
structure HasElement (site : EachSite) (f : FrameId) (s : Store) (v : Value) (b : State) : Prop where
  ip : b.machine.ip = site.inside
  scope : ∃ g w, b.machine.frame = some g ∧ s.frames.size ≤ g ∧
    b.machine.world.store.frame? g = some ⟨Table.empty.insert site.name w, some f, .block⟩ ∧
    s.CopiedAs b.machine.world.store site.name v w

/-- The loop that the engine had begun is over: its frame is the one before, and the loop's value stands on the
operands that were there. -/
structure Past (site : EachSite) (m : Machine) (e : State) : Prop where
  ip : e.machine.ip = site.stop
  frame : e.machine.frame = m.frame
  operands : ∃ l, m.Stacks l ∧ e.machine.Stacks (.null :: l)

/-- What the loop that the engine had begun does where it takes a step that finds an element, or none. The source
is not evaluated again, neither before a round nor in it. -/
inductive Visits (site : EachSite) (pending : List Pending) (m : Machine) (f : FrameId) (a : State) :
    Option Value → Prop
  /-- The body is executed for the element; the loop is over if the body leaves it. -/
  | element {v : Value} {b : State}
    (h : a.Comes pending m.calls.size (fun i => site.Turns i ∨ site.Source i) b)
    (hbegins : b.HasElement site f a.machine.world.store v)
    (hbody : ∀ e, b.Comes pending m.calls.size site.Ends e →
      b.Comes pending m.calls.size (fun i => site.Ends i ∨ site.Source i) e ∧
        (e.machine.ip = site.leave → ∃ d, e.Comes pending m.calls.size (· = site.stop) d ∧ d.Past site m)) :
    Visits site pending m f a (some v)
  /-- The loop is over. -/
  | ended {b : State} (h : a.Comes pending m.calls.size (fun i => site.Turns i ∨ site.Source i) b)
    (hpast : b.Past site m) : Visits site pending m f a none
  /-- Natives are nested as deep as they may be, and the activation fails. -/
  | refused {found : Option Value} (hdeep : nativeLimit ≤ a.machine.natives.size)
    (h : ∀ b, ¬ a.Comes pending m.calls.size site.Turns b) : Visits site pending m f a found

section
variable {pending : List Pending} {k i : Nat} {P P' : Nat → Prop} {s s' e : State} {m : Machine} {V : Veil}
  {bottom : List Pending}

theorem Arrives.mono (h : s.Arrives pending k P) (hsub : ∀ i, P i → P' i) : s.Arrives pending k P' :=
  ⟨h.1, h.2.1, h.2.2.1, h.2.2.2.imp fun i hi => ⟨hi.1, hsub i hi.2⟩⟩

/-- An activation that comes to one of more positions comes there among fewer, too. -/
theorem Comes.narrow (h : Comes pending k P s e) (hsub : ∀ i, P' i → P i) (harrives : e.Arrives pending k P') :
    Comes pending k P' s e := by
  induction h with
  | here => exact .here harrives
  | on hnot hopen hnext _ ih => exact .on (fun hat => hnot (hat.mono hsub)) hopen hnext (ih harrives)

namespace Nears

theorem narrow (h : Nears pending k P s s') (hsub : ∀ i, P' i → P i) : Nears pending k P' s s' := by
  induction h with
  | refl => exact .refl _
  | on hnot hopen hnext _ ih => exact .on (fun hat => hnot (hat.mono hsub)) hopen hnext ih

/-- What comes after. -/
theorem rest (h : Nears pending k P s s') (hcomes : Comes pending k P s e) : Comes pending k P s' e := by
  induction h with
  | refl => exact hcomes
  | on hnot _ hnext _ ih => exact ih (hcomes.next hnot hnext)

end Nears

/-- Where no name is being bound, no operand is hidden. -/
theorem Veiled.still (h : State.Veiled V bottom ⟨m, pending, .running⟩) (hip : m.ip = i)
    (hfirst : ∀ scope, m.ops[i]? ≠ some (.assign scope)) (hsecond : ∀ scope, m.ops[i + 1]? ≠ some (.assign scope)) :
    m.Veiled V := by
  have hbinds : m.Binds V m.ops m.ip.toNat := h.machine
  rw [hip, Int.toNat_natCast] at hbinds
  cases hbinds with
  | none h => exact h
  | marked _ _ _ _ hassign => exact absurd hassign (hsecond _)
  | named _ _ _ hassign => exact absurd hassign (hfirst _)

end
end State

/-!
# What a loop goes through
-/

/-- What a loop finds at the positions of a list, seen from the store: what the list has there at the time, or
if the list is hidden, the same at all times. -/
inductive Store.Traversed (V : Veil) : ListId → (Store → Nat → Option Value) → Prop
  | list (l : ListId) : Traversed V l fun s n => s.element? l n
  | fixed {items : ListId} (found : Nat → Option Value) (h : V.hidden (.list items)) : Traversed V items fun _ => found

namespace Store

variable {V : Veil} {s s' : Store} {it : InstanceId} {items l : ListId} {E : Store → Nat → Option Value} {f : FrameId}
  {name : Text} {vs : List Value} {v : Value}

/-- What was found at one time is found at any other where it is the same. -/
theorem Traversed.later (h : Traversed V items E) (hE : ∀ n, s'.element? items n = E s n) (n : Nat) :
    s'.element? items n = E s' n := by
  cases h with
  | list => rfl
  | fixed => exact hE n

theorem Traversed.spares (h : Traversed V items E) (hs : s.Spares V s') (hE : ∀ n, s.element? items n = E s n) (n : Nat) :
    s'.element? items n = E s' n := by
  cases h with
  | list => rfl
  | fixed found h => exact (hs.element? h n).trans (hE n)

theorem Traversed.leaves (h : Traversed V items E) (hveiled : s.Veiled V) (hs : s.Leaves it s')
    (hE : ∀ n, s.element? items n = E s n) (n : Nat) : s'.element? items n = E s' n := by
  cases h with
  | list => rfl
  | fixed found h => exact (hs.element? (hveiled.known _ h).2 n).trans (hE n)

theorem Sequence.element? (h : s.Sequence l vs) (i : Nat) : s.element? l i = vs[i]? := by
  unfold Store.element?
  rw [h.size]
  split
  · exact (h.get ‹_›).symm
  · exact (List.getElem?_eq_none (Nat.le_of_not_lt ‹_›)).symm

theorem Offers.binds {found : Option Value} (h : s.Offers f found) : s.Binds f Compiler.hiddenStep := by
  obtain ⟨k, hvar, -⟩ := h
  obtain ⟨fr, hf, hv⟩ := Option.bind_eq_some_iff.mp hvar
  exact ⟨fr, hf, Option.isSome_iff_exists.mpr ⟨_, hv⟩⟩

end Store

/-!
# From step to step
-/

/-- Positions where the activation is not executing the loop's own instructions. -/
def EachSite.Outside (site : EachSite) (i : Nat) : Prop :=
  ¬ (site.given ≤ i ∧ i < site.inside ∨ site.again ≤ i ∧ i < site.stop)

theorem EachSite.Spares.outside {site : EachSite} {P : Nat → Prop} (h : site.Spares P) (i : Nat) (hi : P i) :
    site.Outside i :=
  fun hown => h i hown hi

/-- A program with the loop in it runs on the engine; the names of the loop are left alone, and iterators take the
steps of the library. -/
structure EachSite.Kept (site : EachSite) (u : Usage) (p : Program) (code : Op.Fitted) (m : Machine) : Prop where
  stands : site.Stands u code.ops
  laid : site.Laid code.ty
  iterator : u.name Compiler.hiddenIter = false
  step : u.name Compiler.hiddenStep = false
  size : code.ops.size = p.size
  iterates : m.library.Iterates
  next : m.NeverBinds p (Key.join "next" iteratorName)

/-- What the engine is like where the source of the loop has been evaluated. -/
structure EachSite.Given (site : EachSite) (code : Op.Fitted) (m₁ m₂ : Machine) (f : FrameId) (l : List Value)
    (v : Value) : Prop where
  live : (code.ty site.given).live = true
  frame : m₂.frame = some f
  scope : ∃ fr, m₂.world.store.frame? f = some fr ∧ fr.outer = m₁.frame ∧ fr.isBoundary = false
  before : m₁.Stacks l
  operands : m₂.Stacks (v :: .number (Number.ofNat 0) :: l)
  natives : m₂.natives = m₁.natives

section
variable {site : EachSite} {u : Usage} {p : Program} {code : Op.Fitted} {m m₁ m' : Machine} {r : Regime} {V : Veil}
  {pending : List Pending} {k i j n : Nat} {P : Nat → Prop} {f : FrameId} {o : Option FrameId} {l : List Value}
  {it : InstanceId} {items : ListId} {E : Store → Nat → Option Value} {found : Option Value} {s a b e : State} {v : Value}

namespace EachSite.Kept

theorem ready (h : site.Kept u p code m) (hr : r.Governs u p code m) (hreaches : m.Reaches p s)
    (hk : s.machine.calls.size = k) : site.Ready p k s.machine := by
  have hkeeps := (hr.usage hreaches).keeps
  have hops : s.machine.ops = code.ops := hkeeps.ops
  have hlibrary : s.machine.library = m.library := hkeeps.library
  exact ⟨hops ▸ h.stands.toWritten, hkeeps.program, hops ▸ h.size, hops ▸ hr.limit, hk, hlibrary ▸ h.iterates⟩

/-- The expression leaves the source in the scope of the loop. -/
theorem given (h : site.Kept u p code m) (hr : r.Governs u p code m)
    (hreaches : m.Reaches p ⟨m₁, pending, .running⟩) (hip : m₁.ip = site.start)
    (hcomes : State.Comes pending m₁.calls.size (· = site.given) ⟨m₁, pending, .running⟩ s) :
    ∃ f l v, site.Given code m₁ s.machine f l v := by
  have hready := h.ready hr hreaches rfl
  have hgives := h.stands.gives
  obtain ⟨j, hnext⟩ := State.opensScope hready.program hip
    (hready.inside (Nat.lt_of_lt_of_le (by omega) (Nat.le_of_lt (hready.head_lt (j := 0) (by decide)))))
    hready.written.enter.cons.1 pending
  obtain ⟨m₂, hm₂⟩ : ∃ m₂, m₂ =
      { (m₁.withStore (m₁.world.store.newFrame ⟨Table.empty, m₁.frame, .block⟩).2).withJournal j with
        frame := some m₁.world.store.frames.size, ip := ((site.start + 1 : Nat) : Int) } := ⟨_, rfl⟩
  rw [← hm₂] at hnext
  have hnot : ¬ State.Arrives pending m₁.calls.size (· = site.given) ⟨m₁, pending, .running⟩ := by
    rintro ⟨-, -, -, i, hi, rfl⟩
    have heq : site.start = site.given := Int.ofNat.inj (hip.symm.trans hi)
    omega
  replace hcomes := hcomes.next hnot hnext
  obtain ⟨-, -, -, i, hat, hi⟩ := hcomes.arrives
  obtain rfl : i = site.given := hi
  have hresumes := hcomes.resumes hr (hreaches.step hnext) (f := m₁.world.store.frames.size)
    (by rw [hm₂]; rfl) (by rw [hm₂]) (by rw [hm₂]) (by rw [h.laid.enter]; exact List.not_mem_nil)
    h.stands.source hat
  obtain ⟨fr, hfr, hkind, houter⟩ := hresumes.keeps.frames.frames m₁.world.store.frames.size
    ⟨Table.empty, m₁.frame, .block⟩ (by
      rw [hm₂]
      exact Store.newFrame_frame? m₁.world.store ⟨Table.empty, m₁.frame, .block⟩)
  obtain ⟨below, l₁, l₂, known, hstack₁, hlen₁, hstack₂, hfill₂⟩ := hresumes.stack
  rw [h.laid.enter] at hlen₁
  rw [h.laid.given hresumes.live] at hfill₂
  obtain rfl := List.eq_nil_of_length_eq_zero hlen₁
  obtain ⟨v, l, rfl, -, hfill⟩ := Slot.Fill.cons hfill₂
  obtain ⟨_, rest, rfl, ⟨rfl, -⟩, hnone⟩ := Slot.Fill.cons hfill
  obtain rfl := List.eq_nil_of_length_eq_zero hnone.length
  refine ⟨_, below, v, hresumes.live, hresumes.frame (h.laid.givenScopes hresumes.live), ⟨fr, hfr, houter, ?_⟩, ?_,
    hstack₂, ?_⟩
  · unfold Frame.isBoundary
    rw [hkind]
  · rw [hm₂] at hstack₁
    exact ⟨hstack₁.backed, hstack₁.items⟩
  · rw [hresumes.natives, hm₂]
    rfl

/-- Where natives are nested as deep as they may be, the loop fails in front of its first step. -/
theorem refuses {m₀ : Machine} {object : Value} {method : NativeInfo} (h : site.Kept u p code m)
    (hr : r.Separates u p code m) (hreaches : m.Reaches p ⟨m₁, pending, .running⟩) (hip : m₁.ip = site.given)
    (hk : m₁.calls.size = m₀.calls.size) (hgiven : site.Given code m₀ m₁ f l object)
    (hown : ∀ m₂ : Machine, m₂.world.store = m₁.world.store → Exec.ownMember object (.text "iter") m₂ = .ok none m₂)
    (hmethod : m₁.resolve (Key.join "iter" (m₁.world.store.typeName object)) = some (.native method))
    (harity : method.arity = some 1) (hdeep : nativeLimit ≤ m₁.natives.size)
    (hstep : State.AtStep site pending m₀.calls.size ⟨m₁, pending, .running⟩ i a) :
    State.Visits site pending m₀ f a found := by
  have hstarves : ∀ b, ¬ State.Comes pending m₀.calls.size site.Turns ⟨m₁, pending, .running⟩ b := by
    refine (h.ready hr.toGoverns hreaches hk).starves ?_ hown hmethod harity hdeep
      (Machine.At.self hgiven.operands hip)
    exact fun x hx hturns => h.stands.spares_turns x hx (Or.inl hturns)
  have hfirst : a = ⟨m₁, pending, .running⟩ := by
    induction hstep with
    | first => rfl
    | next _ hturn _ _ _ ih =>
      rw [ih] at hturn
      exact absurd hturn (hstarves _)
  rw [hfirst]
  exact .refused hdeep hstarves

end EachSite.Kept
end

/-!
# Compiled loops
-/

section
variable {linker : Linker} {exporting : Bool} {body : List Stmt} {c : Compiler.Compiled} {m m₁ : Machine}
  {strict : Prop} {known : NativeInfo → Prop} {e : DebugEntry}

end

/-!
# Loops of given programs
-/

/-- Where the name of the iterator is bound, and the name of the elements, tell the loop. -/
theorem EachSite.Of.eq {site : EachSite} {p : Program} {e : DebugEntry} {start given again : Nat} {name : Text}
    (h : site.Of p e) (hstop : e.stop = ((again + 12 : Nat) : Int))
    (hlength : e.length = ((again + 12 : Nat) : Int) - (start : Int))
    (hnames : (List.range again).all (fun i =>
      !(Op.pushes (.text "iter") (Op.ofProgram p).ops[i]? &&
        Op.pushes (.text Compiler.hiddenIter) (Op.ofProgram p).ops[i + 4]?) || i == given) = true)
    (hname : Op.pushes (.text name) (Op.ofProgram p).ops[given + 25]? = true) :
    site = ⟨start, given, again, name⟩ := by
  have hagain : site.again = again := by
    have heq : ((site.stop : Nat) : Int) = ((again + 12 : Nat) : Int) := h.stop.symm.trans hstop
    have heq : site.again + 12 = again + 12 := Int.ofNat.inj heq
    omega
  have hstart : site.start = start := by
    have heq := h.length.symm.trans hlength
    unfold EachSite.stop at heq
    omega
  have hgiven : site.given = given := by
    have hlt : site.given < again := by
      have hinside := h.written.inside
      unfold EachSite.inside at hinside
      omega
    have hcheck := List.all_eq_true.mp hnames site.given (List.mem_range.mpr hlt)
    rw [show (Op.ofProgram p).ops[site.given]? = _ from h.written.head 0 _ rfl, h.written.head 4 _ rfl] at hcheck
    simpa [Op.pushes] using hcheck
  have hnamed : site.name = name := by
    have heq := (h.written.head 25 _ rfl).symm.trans (hgiven ▸ Op.eq_of_pushes hname)
    cases heq
    rfl
  rw [← hstart, ← hgiven, ← hagain, ← hnamed]

namespace State

/-- Whether that activation does not come to one of the positions. -/
def misses (k : Nat) (stop : Nat → Bool) : Nat → State → Bool
  | 0, _ => false
  | fuel + 1, s =>
    !s.isAt k stop && (s.isOver k || match s.advance with
      | .next s' => misses k stop fuel s'
      | _ => true)

end State

namespace EachSite

variable {site : EachSite} {u : Usage} {body : List Stmt} {c : Compiler.Compiled} {e : DebugEntry} {m₁ : Machine}
  {s a : State} {source : Value} {steps fuel i : Nat} {check : State → Bool} {found : Option Value}

end EachSite

/-!
# A list that is shortened
-/

end ScriptEngine
