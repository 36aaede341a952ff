import ScriptEngine.Proofs.Program.Marks

/-!
# Iterations in code

Where the parts of a loop over a source stand among the operations of a program: its scope, the source,
the hidden bindings of the iterator and of its steps, the test in front of every round, the binding of the
element, the body, and the next step.
-/

namespace ScriptEngine

/-- The places of a loop over a source: of the instruction that opens its scope, behind the source, and of
the step behind its body; and the name that every round binds. -/
structure EachSite where
  start : Nat
  given : Nat
  again : Nat
  name : Text

namespace EachSite

/-- The test in front of a round. -/
def first (site : EachSite) : Nat :=
  site.given + 16

/-- The scope of a round. -/
def round (site : EachSite) : Nat :=
  site.given + 20

/-- The statements of the body, where the element is bound. -/
def inside (site : EachSite) : Nat :=
  site.given + 28

/-- The end of the loop's scope. -/
def leave (site : EachSite) : Nat :=
  site.again + 10

/-- What stands behind the loop. -/
def stop (site : EachSite) : Nat :=
  site.again + 12

/-- The iterator is asked for its next step, which is bound. -/
def stepping (scope : Scope) : List Op :=
  [.push (.number (Number.ofNat 0)), .getVar Compiler.hiddenIter, .push (.text "next"), .getMember, .call,
    .push .empty, .push (.text Compiler.hiddenStep), .assign scope, .pop]

/-- The source is asked for an iterator, which is bound. -/
def opening : List Op :=
  [.push (.text "iter"), .getMember, .call, .push .empty, .push (.text Compiler.hiddenIter),
    .assign .inner, .pop]

/-- Whether the step gives an element. -/
def testing (site : EachSite) : List Op :=
  [.getVar Compiler.hiddenStep, .push (.number (Number.ofNat 2)), .getMember,
    .jumpIfFalse ((site.leave : Int) - site.round)]

/-- The element is bound in the scope of the round. -/
def binding (site : EachSite) : List Op :=
  [.scopeEnter, .getVar Compiler.hiddenStep, .push (.number (Number.ofNat 1)), .getMember, .push .empty,
    .push (.text site.name), .assign .inner, .pop]

/-- The way back to the test, and the end of the loop. -/
def closing (site : EachSite) : List Op :=
  [.jump ((site.first : Int) - site.leave), .scopeExit, .push .null]

/-- The operations of the loop, apart from those of the source and of the body. -/
structure Written (site : EachSite) (ops : Array Op) : Prop where
  gives : site.start + 2 ≤ site.given
  inside : site.inside < site.again
  size : site.stop ≤ ops.size
  enter : Op.Spelled ops site.start [.scopeEnter, .push (.number (Number.ofNat 0))]
  head : Op.Spelled ops site.given (opening ++ (stepping .inner ++ (site.testing ++ site.binding)))
  tail : Op.Spelled ops site.again (stepping .nearest ++ site.closing)

/-- Control leads from the operations of the body to the body, to the next step or to the end of the loop. -/
def Closed (site : EachSite) (ops : Array Op) : Prop :=
  ∀ (i : Nat) op, site.round ≤ i → i < site.again → ops[i]? = some op →
    op.Hands ops i (fun j => site.round ≤ j ∧ j ≤ site.again ∨ j = site.leave) fun _ => True

/-- The loop stands in the operations; neither the source nor the body touches what the loop keeps in its
scope, and control does not get from the body to the source. -/
structure Stands (u : Usage) (site : EachSite) (ops : Array Op) : Prop extends site.Written ops where
  source : Op.Secure u ops (· = site.given) (site.start + 1) (.still [])
  body : Op.Secure u ops (fun i => i = site.again ∨ i = site.leave) site.round (.still [])
  closed : site.Closed ops

end EachSite

/-- A loop of the kind takes the operations between two positions. The source of a loop is a node of its own,
whose entry tells how far it is from position `k` on. -/
structure Op.Loops (u : Usage) (ops : Array Op) (debug : DebugTable) (k : Nat) (kind : Text) (start stop : Nat) :
    Prop where
  counted : kind = "Loop" → ∃ site : LoopSite, site.start = start ∧ site.stop = stop ∧ site.Stands u ops
  each : kind = "Each" → ∃ site : EachSite, site.start = start ∧ site.stop = stop ∧ site.Stands u ops ∧
    ∃ e ∈ debug, e.stop + k = site.given ∧ e.length = (site.given : Nat) - (site.start + 2 : Nat)

namespace Op.Loops

variable {u : Usage} {ops : Array Op} {debug debug' : DebugTable} {k n start stop : Nat} {kind : Text}

/-- There may be more entries. -/
theorem among (h : Loops u ops debug k kind start stop) (hdebug : ∀ e ∈ debug, e ∈ debug') :
    Loops u ops debug' k kind start stop where
  counted := h.counted
  each hkind := by
    obtain ⟨site, hstart, hstop, hstands, e, he, hgiven⟩ := h.each hkind
    exact ⟨site, hstart, hstop, hstands, e, hdebug e he, hgiven⟩

/-- Entries may tell positions from further ahead on. -/
theorem moved (h : Loops u ops debug (k + n) kind start stop) :
    Loops u ops (debug.map (·.shift n)) k kind start stop where
  counted := h.counted
  each hkind := by
    obtain ⟨site, hstart, hstop, hstands, e, he, hgiven, hlength⟩ := h.each hkind
    refine ⟨site, hstart, hstop, hstands, e.shift n, List.mem_map_of_mem he, ?_, hlength⟩
    show e.stop + n + k = _
    omega

end Op.Loops

/-!
# Layouts of loops over a source
-/

namespace Op.Fit

variable {ops : Array Op} {ty : Nat → Layout} {i : Nat} {a c : Layout} {scope : Scope}

section
variable (h : Fit ops ty) (hlive : (ty i).live = true)
include h hlive

theorem getMember (hop : ops[i]? = some .getMember) :
    ∃ a : Layout, ty i = (a.push .value).push .value ∧ ty (i + 1) = a.push .value := by
  obtain ⟨o, hflow, hlands⟩ := h.flows i _ hop hlive
  generalize hb : ty i = b at hflow
  cases hflow with
  | getMember => exact ⟨_, rfl, hlands⟩

/-- A call without arguments. -/
theorem call {s : Slot} (hs : s.Admits (.number (Number.ofNat 0))) (hty : ty i = (c.push s).push .value)
    (hop : ops[i]? = some .call) : s = .count 0 ∧ ty (i + 1) = c.push .value := by
  obtain ⟨o, hflow, hlands⟩ := h.flows i _ hop hlive
  rw [hty] at hflow
  generalize hb : (c.push s).push .value = b at hflow
  cases hflow with
  | @call b n =>
    obtain ⟨rfl, hargs⟩ := Layout.push_inj (Layout.push_inj hb).2
    have hlimit : n < 2 ^ 53 := Nat.lt_of_le_of_lt hs.2 (by decide)
    obtain rfl : 0 = n := Number.ofNat_injective (by decide) hlimit (Value.number.inj hs.1)
    have hsame : c = b := hargs
    have hnext : ty (i + 1) = b.push .value := hlands
    exact ⟨rfl, by rw [hnext, hsame]⟩

/-- A member of the value on the stack is called without arguments. -/
theorem callMember {s : Slot} {name : Text} (hs : s.Admits (.number (Number.ofNat 0)))
    (hty : ty i = (c.push s).push .value) (hname : ops[i]? = some (.push (.text name)))
    (hmember : ops[i + 1]? = some .getMember) (hcall : ops[i + 2]? = some .call) :
    s = .count 0 ∧ ty (i + 3) = c.push .value := by
  obtain ⟨s', -, hpush⟩ := h.push hlive hname
  have hlive₁ : (ty (i + 1)).live = true := by
    rw [hpush]
    exact hlive
  obtain ⟨b, hb, hnext⟩ := h.getMember hlive₁ hmember
  have hsame : ty i = b.push .value := (Layout.push_inj (hpush.symm.trans hb)).2
  have hcalled : ty (i + 2) = (c.push s).push .value := hnext.trans (hsame.symm.trans hty)
  refine h.call (i := i + 2) ?_ hs hcalled hcall
  rw [hcalled, ← hty]
  exact hlive

/-- A step leaves the layout as it is. -/
theorem stepping (hops : Spelled ops i (EachSite.stepping scope)) : ty (i + 9) = ty i := by
  obtain ⟨hzero, hops⟩ := hops.cons
  obtain ⟨hiter, hops⟩ := hops.cons
  obtain ⟨hnext, hops⟩ := hops.cons
  obtain ⟨hmember, hops⟩ := hops.cons
  obtain ⟨hcall, hops⟩ := hops.cons
  obtain ⟨hmarker, hops⟩ := hops.cons
  obtain ⟨hname, hops⟩ := hops.cons
  obtain ⟨hassign, hops⟩ := hops.cons
  obtain ⟨hpop, -⟩ := hops.cons
  obtain ⟨s, hs, hty₁⟩ := h.push hlive hzero
  have hty₂ := h.getVar (i := i + 1) (by rw [hty₁]; exact hlive) hiter
  rw [hty₁] at hty₂
  obtain ⟨-, hty₃⟩ := h.callMember (i := i + 2) (by rw [hty₂]; exact hlive) hs hty₂ hnext hmember hcall
  have hbound := h.bindTop (i := i + 5) (by rw [hty₃]; exact hlive) hmarker hname hassign hpop
  exact ((Layout.push_inj (hty₃.symm.trans hbound)).2).symm

end
end Op.Fit

/-- The layouts inside a loop over a source that begins without operands: its own scope is open, no argument
of the call of `iter` lies below the source, and there are no operands where a round begins or ends. -/
structure EachSite.Laid (site : EachSite) (ty : Nat → Layout) : Prop where
  enter : (ty (site.start + 1)).slots = []
  given : (ty site.given).live = true → (ty site.given).slots = [.value, .count 0]
  givenScopes : (ty site.given).live = true → (ty site.given).scopes = (ty (site.start + 1)).scopes
  round : (ty site.given).live = true → (ty site.round).slots = []
  leave : (ty site.given).live = true → ty site.leave = ty site.round
  again : (ty site.given).live = true → (ty site.again).live = true → ty site.again = ty site.round

namespace EachSite

variable {site : EachSite} {ops : Array Op} {ty : Nat → Layout}

/-- The layouts between the source and the first round. -/
theorem Written.head_layouts (h : site.Written ops) (hfit : Op.Fit ops ty) (hlive : (ty site.given).live = true)
    {s : Slot} (hs : s.Admits (.number (Number.ofNat 0))) (hslots : (ty site.given).slots = [.value, s]) :
    s = .count 0 ∧ (ty site.first).slots = [] ∧ ty site.round = ty site.first ∧ ty site.leave = ty site.round := by
  obtain ⟨hopening, hrest⟩ := h.head.append
  obtain ⟨hstep, hrest⟩ := hrest.append
  obtain ⟨htest, -⟩ := hrest.append
  obtain ⟨hiter, hopening⟩ := hopening.cons
  obtain ⟨hmember, hopening⟩ := hopening.cons
  obtain ⟨hcall, hopening⟩ := hopening.cons
  obtain ⟨hmarker, hopening⟩ := hopening.cons
  obtain ⟨hname, hopening⟩ := hopening.cons
  obtain ⟨hassign, hopening⟩ := hopening.cons
  obtain ⟨hpop, -⟩ := hopening.cons
  obtain ⟨c, hc⟩ : ∃ c : Layout, c = { ty site.given with slots := [] } := ⟨_, rfl⟩
  have hgiven : ty site.given = (c.push s).push .value := by
    rw [hc]
    generalize ty site.given = a at hslots
    obtain ⟨slots, scopes, inCall, live⟩ := a
    obtain rfl : slots = [.value, s] := hslots
    rfl
  have hclive : c.live = true := by
    rw [hc]
    exact hlive
  obtain ⟨hcount, hcalled⟩ := hfit.callMember hlive hs hgiven hiter hmember hcall
  have hbound := hfit.bindTop (i := site.given + 3) (by rw [hcalled]; exact hclive) hmarker hname hassign hpop
  have hopened : ty (site.given + 7) = c := ((Layout.push_inj (hcalled.symm.trans hbound)).2).symm
  have hfirst : ty site.first = c :=
    (hfit.stepping (i := site.given + 7) (by rw [hopened]; exact hclive) hstep).trans hopened
  obtain ⟨hstep₁, htest⟩ := htest.cons
  obtain ⟨htwo, htest⟩ := htest.cons
  obtain ⟨hsecond, htest⟩ := htest.cons
  obtain ⟨hjump, -⟩ := htest.cons
  have hty₁ : ty (site.given + 17) = c.push .value := by
    have hget := hfit.getVar (i := site.first) (by rw [hfirst]; exact hclive) hstep₁
    rw [hfirst] at hget
    exact hget
  obtain ⟨s', -, hty₂⟩ := hfit.push (i := site.given + 17) (by rw [hty₁]; exact hclive) htwo
  rw [hty₁] at hty₂
  obtain ⟨b, hb, hty₃⟩ := hfit.getMember (i := site.given + 18) (by rw [hty₂]; exact hclive) hsecond
  have hsame : c = b := (Layout.push_inj (Layout.push_inj (hty₂.symm.trans hb)).2).2
  rw [← hsame] at hty₃
  obtain ⟨hnext, hleave⟩ := hfit.jumpIfFalse (i := site.given + 19) (j := site.leave) (by rw [hty₃]; exact hclive) hjump
    (by unfold round; omega)
  have hround : ty site.round = c := ((Layout.push_inj (hty₃.symm.trans hnext)).2).symm
  refine ⟨hcount, ?_, hround.trans hfirst.symm, hleave⟩
  rw [hfirst, hc]

theorem Written.laid (h : site.Written ops) (hfit : Op.Fit ops ty) (hlive : (ty site.start).live = true)
    (hbare : (ty site.start).slots = []) (hsource : (ty (site.start + 2)).Gains (ty site.given)) :
    site.Laid ty := by
  obtain ⟨henter, hrest⟩ := h.enter.cons
  obtain ⟨hzero, -⟩ := hrest.cons
  have hty₁ := hfit.scopeEnter hlive henter
  obtain ⟨s, hs, hty₂⟩ := hfit.push (i := site.start + 1) (by rw [hty₁]; exact hlive) hzero
  have hslots₁ : (ty (site.start + 1)).slots = [] := by
    rw [hty₁]
    exact hbare
  have hslots : (ty site.given).slots = [.value, s] := by
    rw [hsource.1, hty₂]
    exact congrArg (fun l => Slot.value :: s :: l) hslots₁
  obtain ⟨hstep, hclosing⟩ := h.tail.append
  obtain ⟨hjump, -⟩ := hclosing.cons
  refine ⟨hslots₁, fun hgiven => ?_, fun _ => ?_, fun hgiven => ?_,
    fun hgiven => (h.head_layouts hfit hgiven hs hslots).2.2.2, fun hgiven hagain => ?_⟩
  · rw [hslots, (h.head_layouts hfit hgiven hs hslots).1]
  · rw [hsource.2, hty₂]
    rfl
  · obtain ⟨-, hfirst, hround, -⟩ := h.head_layouts hfit hgiven hs hslots
    rw [hround]
    exact hfirst
  · obtain ⟨-, -, hround, -⟩ := h.head_layouts hfit hgiven hs hslots
    have hsame := hfit.stepping hagain hstep
    have hback := hfit.jump (i := site.again + 9) (j := site.first) (by rw [hsame]; exact hagain) hjump
      (by unfold leave; omega)
    exact hsame.symm.trans (hback.symm.trans hround.symm)

end EachSite
end ScriptEngine
