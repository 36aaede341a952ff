import Mathlib.Logic.Relation
import ScriptEngine.Machine
import ScriptEngine.Proofs.Store.Chains
import ScriptEngine.Proofs.Store.Scope

/-!
# Frames hang on earlier frames

A frame is made around nothing, as the root of a run, or inside a frame that is there: a block inside the
current frame, an activation inside the frame that its closure was built in, which returns to the frame
that called. Closures are built in frames that are there, and copies of them stay there. So whatever is
built on a store, its links lead to earlier frames, and only roots have nothing around them.
-/

namespace ScriptEngine

/-- The frame is the outermost one of a run. -/
def Frame.IsRoot (fr : Frame) : Prop :=
  fr.outer = none ∧ ∃ name, fr.kind = .boundary name none none Text.empty

namespace Store

/-- Frames are linked to frames that were there before, and closures to frames that are there. -/
structure Linked (s : Store) : Prop where
  outer : s.Ordered
  callers : ∀ f fr, s.frame? f = some fr → ∀ g, fr.caller = some g → g < f
  roots : ∀ f fr, s.frame? f = some fr → fr.outer = none → fr.IsRoot
  captured : ∀ c cl, s.closure? c = some cl → ∃ f, cl.frame = some f ∧ f < s.frames.size

/-- Every closure of the second store was built where one of the first was. -/
def Captures (s s' : Store) : Prop :=
  ∀ c cl', s'.closure? c = some cl' → ∃ c₀ cl, s.closure? c₀ = some cl ∧ cl.frame = cl'.frame

/-- One thing is built on a store. -/
inductive BuildsOn (s : Store) : Store → Prop
  /-- Objects and bindings change, and closures are copied. -/
  | values {s' : Store} (hsize : s'.frames.size = s.frames.size)
    (hlinks : ∀ f fr, s.frame? f = some fr →
      ∃ fr', s'.frame? f = some fr' ∧ fr'.kind = fr.kind ∧ fr'.outer = fr.outer)
    (hcaptured : s.Captures s') : BuildsOn s s'
  | closure {cl : Closure} {f : FrameId} (hframe : cl.frame = some f) (hf : f < s.frames.size) :
    BuildsOn s (s.newClosure cl).2
  | root (name : Text) : BuildsOn s (s.newRoot name).2
  | block {f : FrameId} (hf : f < s.frames.size) : BuildsOn s (s.newBlock (some f)).2
  | activation {vars : Table Value} {f : FrameId} {name native : Text} {site : Option Span}
    {caller : Option FrameId} (hf : f < s.frames.size) (hcaller : s.HasFrame caller) :
    BuildsOn s (s.newFrame ⟨vars, some f, .boundary name site caller native⟩).2

/-- The second store came out of the first by building on it. -/
def BuiltOn : Store → Store → Prop :=
  Relation.ReflTransGen BuildsOn

variable {s s' s'' : Store} {f g : FrameId} {fr : Frame} {n : Nat}

namespace Captures

theorem refl (s : Store) : s.Captures s :=
  fun c cl h => ⟨c, cl, h, rfl⟩

theorem trans (h : s.Captures s') (h' : s'.Captures s'') : s.Captures s'' := by
  intro c cl hc
  obtain ⟨c', cl', hc', hframe'⟩ := h' c cl hc
  obtain ⟨c₀, cl₀, hc₀, hframe⟩ := h c' cl' hc'
  exact ⟨c₀, cl₀, hc₀, hframe.trans hframe'⟩

theorem of_same (h : s'.closures = s.closures) : s.Captures s' := by
  intro c cl hc
  unfold closure? at hc
  rw [h] at hc
  exact ⟨c, cl, hc, rfl⟩

/-- A closure is built where another one was. -/
theorem newClosure {c₀ : ClosureId} {cl₀ cl : Closure} (h : s.closure? c₀ = some cl₀)
    (hframe : cl₀.frame = cl.frame) : s.Captures (s.newClosure cl).2 := by
  intro c cl' hc
  have hc : (s.closures.push cl)[c]? = some cl' := hc
  rw [Array.getElem?_push] at hc
  split at hc
  · cases hc
    exact ⟨c₀, cl₀, h, hframe⟩
  · exact ⟨c, cl', hc, rfl⟩

/-- A closure is changed but for where it was built. -/
theorem modifyClosure (s : Store) (c : ClosureId) {change : Closure → Closure}
    (h : ∀ cl, (change cl).frame = cl.frame) :
    s.Captures { s with closures := s.closures.modify c change } := by
  intro c' cl hc
  have hc : (s.closures.modify c change)[c']? = some cl := hc
  rw [Array.getElem?_modify] at hc
  split at hc
  · obtain ⟨cl₀, hcl₀, rfl⟩ := Option.map_eq_some_iff.mp hc
    exact ⟨c', cl₀, hcl₀, (h cl₀).symm⟩
  · exact ⟨c', cl, hc, rfl⟩

/-- Copies of a closure are in its frame, other copies are no closures. -/
theorem copy (s : Store) (v : Value) : s.Captures (s.copy v).2 := by
  cases v with
  | closure c =>
    unfold Store.copy
    cases hc : s.closure? c with
    | none =>
      simp only [hc]
      exact refl s
    | some cl =>
      simp only [hc]
      exact newClosure hc rfl
  | inst i =>
    unfold Store.copy
    cases hi : s.instance? i with
    | none =>
      simp only [hi]
      exact refl s
    | some inst =>
      simp only [hi]
      exact of_same rfl
  | list l => exact of_same rfl
  | dict d => exact of_same rfl
  | _ => exact refl s

end Captures

/-!
# What is built leaves what is there
-/

/-- The frames of a store with one frame more. -/
theorem newFrame_cases {fr' : Frame} (h : (s.newFrame fr).2.frame? f = some fr') :
    s.frame? f = some fr' ∨ f = s.frames.size ∧ fr' = fr := by
  have h : (s.frames.push fr)[f]? = some fr' := h
  rw [Array.getElem?_push] at h
  split at h
  · rename_i hlast
    cases h
    exact Or.inr ⟨hlast, rfl⟩
  · exact Or.inl h

theorem size_newFrame (s : Store) (fr : Frame) : (s.newFrame fr).2.frames.size = s.frames.size + 1 :=
  Array.size_push fr

theorem BuildsOn.links (h : s.BuildsOn s') : ∀ f fr, s.frame? f = some fr →
    ∃ fr', s'.frame? f = some fr' ∧ fr'.kind = fr.kind ∧ fr'.outer = fr.outer := by
  intro f fr hf
  cases h with
  | values _ hlinks => exact hlinks f fr hf
  | closure => exact ⟨fr, hf, rfl, rfl⟩
  | root | block | activation => exact (Grows.newFrame s _).frames f fr hf

theorem BuildsOn.size_le (h : s.BuildsOn s') : s.frames.size ≤ s'.frames.size := by
  cases h with
  | values hsize => exact Nat.le_of_eq hsize.symm
  | closure => exact Nat.le_refl _
  | root | block | activation => exact Nat.le_of_lt (Nat.lt_of_lt_of_eq (Nat.lt_succ_self _)
      (size_newFrame s _).symm)

namespace BuiltOn

theorem refl (s : Store) : s.BuiltOn s :=
  Relation.ReflTransGen.refl

theorem trans (h : s.BuiltOn s') (h' : s'.BuiltOn s'') : s.BuiltOn s'' :=
  Relation.ReflTransGen.trans h h'

/-- Frames are as they were, and closures are where closures were. -/
theorem captures (hframes : s'.frames = s.frames) (hcaptured : s.Captures s') : s.BuiltOn s' := by
  refine .single (.values (congrArg Array.size hframes) (fun f fr hf => ?_) hcaptured)
  refine ⟨fr, ?_, rfl, rfl⟩
  unfold frame?
  rw [hframes]
  exact hf

theorem of_same (hframes : s'.frames = s.frames) (hclosures : s'.closures = s.closures) :
    s.BuiltOn s' :=
  captures hframes (.of_same hclosures)

theorem define (s : Store) (f : FrameId) (name : Text) (v : Value) : s.BuiltOn (s.define f name v) :=
  .single (.values Array.size_modify (Grows.define s f name v).frames (.of_same rfl))

theorem setNearest (s : Store) (f : FrameId) (name : Text) (v : Value) :
    s.BuiltOn (s.setNearest f name v) := by
  unfold Store.setNearest
  split
  · exact define s _ name v
  · exact define s f name v

theorem setOuter (s : Store) (f : FrameId) (name : Text) (v : Value) :
    s.BuiltOn (s.setOuter f name v) := by
  unfold Store.setOuter
  split
  · exact define s f name v
  split
  · exact define s _ name v
  split
  · exact define s _ name v
  · exact define s _ name v

theorem links (h : s.BuiltOn s') : ∀ f fr, s.frame? f = some fr →
    ∃ fr', s'.frame? f = some fr' ∧ fr'.kind = fr.kind ∧ fr'.outer = fr.outer := by
  induction h with
  | refl => exact fun f fr hf => ⟨fr, hf, rfl, rfl⟩
  | tail _ hnext ih =>
    intro f fr hf
    obtain ⟨fr', hf', hkind, houter⟩ := ih f fr hf
    obtain ⟨fr'', hf'', hkind', houter'⟩ := hnext.links f fr' hf'
    exact ⟨fr'', hf'', hkind'.trans hkind, houter'.trans houter⟩

theorem size_le (h : s.BuiltOn s') : s.frames.size ≤ s'.frames.size := by
  induction h with
  | refl => exact Nat.le_refl _
  | tail _ hnext ih => exact Nat.le_trans ih hnext.size_le

theorem hasFrame {frame : Option FrameId} (h : s.BuiltOn s') (hframe : s.HasFrame frame) :
    s'.HasFrame frame :=
  fun g hg => Nat.lt_of_lt_of_le (hframe g hg) h.size_le

end BuiltOn

/-!
# Links stay
-/

/-- A store without frames and closures. -/
theorem linked_of_none (hframes : s.frames = #[]) (hclosures : s.closures = #[]) : s.Linked := by
  have hframe : ∀ f, s.frame? f = none := by
    intro f
    unfold frame?
    rw [hframes]
    rfl
  refine ⟨fun f fr hf => ?_, fun f fr hf => ?_, fun f fr hf => ?_, fun c cl hc => ?_⟩
  · rw [hframe] at hf
    cases hf
  · rw [hframe] at hf
    cases hf
  · rw [hframe] at hf
    cases hf
  · unfold closure? at hc
    rw [hclosures] at hc
    cases hc

namespace Linked

/-- A frame is added that hangs on frames that are there, or is a root. -/
theorem newFrame (h : s.Linked) (houter : s.HasFrame fr.outer) (hcaller : s.HasFrame fr.caller)
    (hroot : fr.outer = none → fr.IsRoot) : (s.newFrame fr).2.Linked where
  outer f fr' hf g hg := by
    rcases newFrame_cases hf with hf | ⟨rfl, rfl⟩
    · exact h.outer f fr' hf g hg
    · exact houter g hg
  callers f fr' hf g hg := by
    rcases newFrame_cases hf with hf | ⟨rfl, rfl⟩
    · exact h.callers f fr' hf g hg
    · exact hcaller g hg
  roots f fr' hf houter' := by
    rcases newFrame_cases hf with hf | ⟨rfl, rfl⟩
    · exact h.roots f fr' hf houter'
    · exact hroot houter'
  captured c cl hc := by
    obtain ⟨f, hframe, hf⟩ := h.captured c cl hc
    exact ⟨f, hframe, Nat.lt_of_lt_of_eq (Nat.lt_succ_of_lt hf) (size_newFrame s fr).symm⟩

/-- A closure is added in a frame that is there. -/
theorem newClosure {cl : Closure} (h : s.Linked) (hframe : cl.frame = some f)
    (hf : f < s.frames.size) : (s.newClosure cl).2.Linked where
  outer := h.outer
  callers := h.callers
  roots := h.roots
  captured c cl' hc := by
    have hc : (s.closures.push cl)[c]? = some cl' := hc
    rw [Array.getElem?_push] at hc
    split at hc
    · cases hc
      exact ⟨f, hframe, hf⟩
    · exact h.captured c cl' hc

/-- Links are as they were, and closures stay where closures were. -/
theorem values (h : s.Linked) (hsize : s'.frames.size = s.frames.size)
    (hlinks : ∀ f fr, s.frame? f = some fr →
      ∃ fr', s'.frame? f = some fr' ∧ fr'.kind = fr.kind ∧ fr'.outer = fr.outer)
    (hcaptured : s.Captures s') : s'.Linked := by
  have hback : ∀ f fr', s'.frame? f = some fr' →
      ∃ fr, s.frame? f = some fr ∧ fr'.kind = fr.kind ∧ fr'.outer = fr.outer := by
    intro f fr' hf'
    obtain ⟨fr, hf⟩ := exists_frame (Nat.lt_of_lt_of_eq (lt_of_frame? hf') hsize)
    obtain ⟨fr'', hf'', hkind, houter⟩ := hlinks f fr hf
    rw [hf'] at hf''
    cases hf''
    exact ⟨fr, hf, hkind, houter⟩
  refine ⟨fun f fr' hf' g hg => ?_, fun f fr' hf' g hg => ?_, fun f fr' hf' hnone => ?_,
    fun c cl' hc' => ?_⟩
  · obtain ⟨fr, hf, -, houter⟩ := hback f fr' hf'
    exact h.outer f fr hf g (houter.symm.trans hg)
  · obtain ⟨fr, hf, hkind, -⟩ := hback f fr' hf'
    refine h.callers f fr hf g ?_
    unfold Frame.caller at hg ⊢
    rw [← hkind]
    exact hg
  · obtain ⟨fr, hf, hkind, houter⟩ := hback f fr' hf'
    obtain ⟨-, name, hroot⟩ := h.roots f fr hf (houter.symm.trans hnone)
    exact ⟨hnone, name, hkind.trans hroot⟩
  · obtain ⟨c₀, cl, hc, hframe⟩ := hcaptured c cl' hc'
    obtain ⟨f, hf, hlt⟩ := h.captured c₀ cl hc
    exact ⟨f, hframe.symm.trans hf, Nat.lt_of_lt_of_eq hlt hsize.symm⟩

theorem buildsOn (h : s.Linked) (hbuilds : s.BuildsOn s') : s'.Linked := by
  cases hbuilds with
  | values hsize hlinks hcaptured => exact h.values hsize hlinks hcaptured
  | closure hframe hf => exact h.newClosure hframe hf
  | root name => exact h.newFrame (hasFrame_none s) (hasFrame_none s) fun _ => ⟨rfl, name, rfl⟩
  | block hf => exact h.newFrame (hasFrame_some hf) (hasFrame_none s) nofun
  | activation hf hcaller => exact h.newFrame (hasFrame_some hf) hcaller nofun

theorem builtOn (h : s.Linked) (hbuilt : s.BuiltOn s') : s'.Linked := by
  induction hbuilt with
  | refl => exact h
  | tail _ hnext ih => exact ih.buildsOn hnext

/-- A chain of frames ends at a root. -/
theorem ends_at_root {start : Option FrameId} {fs : List FrameId} (h : s.Linked)
    (hchain : s.Outward start fs) (hstart : start ≠ none) :
    ∃ front r root, fs = front ++ [r] ∧ s.frame? r = some root ∧ root.IsRoot := by
  induction hchain with
  | outside => exact absurd rfl hstart
  | @frame f fr fs hf hrest ih =>
    by_cases houter : fr.outer = none
    · have hroot := h.roots f fr hf houter
      rw [houter] at hrest
      cases hrest
      exact ⟨[], f, fr, rfl, hf, hroot⟩
    · obtain ⟨front, r, root, rfl, hr, hroot⟩ := ih houter
      exact ⟨f :: front, r, root, rfl, hr, hroot⟩

/-- Every frame belongs to an activation, or to a root. -/
theorem boundary (h : s.Linked) (hf : f < s.frames.size) :
    ∃ b fr, s.boundary (some f) = some b ∧ s.frame? b = some fr ∧ fr.isBoundary = true := by
  obtain ⟨fs, hchain⟩ := h.outer.chain hf
  obtain ⟨front, r, root, rfl, hr, hroot⟩ := h.ends_at_root hchain nofun
  have hlast : s.isBoundary r = true := by
    obtain ⟨-, name, hkind⟩ := hroot
    rw [isBoundary, hr]
    show root.isBoundary = true
    rw [Frame.isBoundary, hkind]
  have hfound : ((front ++ [r]).find? s.isBoundary).isSome = true :=
    List.find?_isSome.mpr ⟨r, List.mem_append_right front (List.mem_singleton_self r), hlast⟩
  obtain ⟨b, hb⟩ := Option.isSome_iff_exists.mp hfound
  have hboundary : (s.frame? b).any Frame.isBoundary = true := List.find?_some (p := s.isBoundary) hb
  obtain ⟨fr, hfr, hkind⟩ := (Option.any_eq_true _ _).mp hboundary
  exact ⟨b, fr, (hchain.boundary h.outer).trans hb, hfr, hkind⟩

/-- A block lies in a frame. -/
theorem outer_of_block (h : s.Linked) (hf : s.frame? f = some fr) (hkind : fr.isBoundary = false) :
    ∃ g, fr.outer = some g := by
  cases houter : fr.outer with
  | some g => exact ⟨g, rfl⟩
  | none =>
    obtain ⟨-, name, hroot⟩ := h.roots f fr hf houter
    rw [Frame.isBoundary, hroot] at hkind
    cases hkind

end Linked

/-!
# How many calls a frame is in
-/

/-- From the frame outward, at least so many activations return to a frame. -/
inductive Deep (s : Store) : FrameId → Nat → Prop
  | here {f : FrameId} : Deep s f 0
  | block {f g : FrameId} {fr : Frame} {n : Nat} (hf : s.frame? f = some fr)
    (hkind : fr.isBoundary = false) (houter : fr.outer = some g) (h : Deep s g n) : Deep s f n
  | activation {f g : FrameId} {fr : Frame} {n : Nat} (hf : s.frame? f = some fr)
    (hcaller : fr.caller = some g) (h : Deep s g n) : Deep s f (n + 1)

theorem caller_of_block (hkind : fr.isBoundary = false) : fr.caller = none := by
  unfold Frame.isBoundary at hkind
  unfold Frame.caller
  cases hfr : fr.kind with
  | block => rfl
  | boundary =>
    rw [hfr] at hkind
    cases hkind

namespace Deep

theorem builtOn (h : s.Deep f n) (hbuilt : s.BuiltOn s') : s'.Deep f n := by
  induction h with
  | here => exact .here
  | block hf hkind houter _ ih =>
    obtain ⟨fr', hf', hkind', houter'⟩ := hbuilt.links _ _ hf
    refine .block hf' ?_ (houter'.trans houter) ih
    unfold Frame.isBoundary at hkind ⊢
    rw [hkind']
    exact hkind
  | activation hf hcaller _ ih =>
    obtain ⟨fr', hf', hkind', -⟩ := hbuilt.links _ _ hf
    refine .activation hf' ?_ ih
    unfold Frame.caller at hcaller ⊢
    rw [hkind']
    exact hcaller

/-- What is in some calls is in fewer calls. -/
theorem fewer {k : Nat} (h : s.Deep f n) (hk : k ≤ n) : s.Deep f k := by
  induction h generalizing k with
  | here =>
    obtain rfl := Nat.eq_zero_of_le_zero hk
    exact .here
  | block hf hkind houter _ ih => exact .block hf hkind houter (ih hk)
  | activation hf hcaller _ ih =>
    cases k with
    | zero => exact .here
    | succ k => exact .activation hf hcaller (ih (Nat.le_of_succ_le_succ hk))

/-- A block is in the calls that the frame around it is in. -/
theorem outer (h : s.Deep f n) (hf : s.frame? f = some fr) (hkind : fr.isBoundary = false)
    (houter : fr.outer = some g) : s.Deep g n := by
  cases h with
  | here => exact .here
  | block hf' _ houter' h =>
    rw [hf] at hf'
    cases hf'
    rw [houter] at houter'
    cases houter'
    exact h
  | activation hf' hcaller =>
    rw [hf] at hf'
    cases hf'
    rw [caller_of_block hkind] at hcaller
    cases hcaller

/-- The activation that a frame belongs to is in the same calls. -/
theorem boundary {b : FrameId} (h : s.Deep f n) (hb : s.boundary (some f) = some b) : s.Deep b n := by
  have hwalk : ∀ (fuel : Nat) (f : FrameId), s.Deep f n → s.boundaryFrom fuel (some f) = some b →
      s.Deep b n := by
    intro fuel
    induction fuel with
    | zero =>
      intro f _ hb
      cases hb
    | succ fuel ih =>
      intro f h hb
      rw [boundaryFrom] at hb
      cases hf : s.frame? f with
      | none =>
        rw [hf] at hb
        cases hb
      | some fr =>
        rw [hf] at hb
        dsimp only at hb
        cases hkind : fr.isBoundary with
        | true =>
          rw [hkind, if_pos rfl] at hb
          cases hb
          exact h
        | false =>
          rw [hkind, if_neg Bool.false_ne_true] at hb
          cases houter : fr.outer with
          | none =>
            rw [houter] at hb
            cases fuel <;> cases hb
          | some g =>
            rw [houter] at hb
            exact ih g (h.outer hf hkind houter) hb
  exact hwalk _ f h hb

/-- An activation in some calls returns to a frame that is in one call less. -/
theorem caller (h : s.Deep f (n + 1)) (hf : s.frame? f = some fr) (hkind : fr.isBoundary = true) :
    ∃ g, fr.caller = some g ∧ s.Deep g n := by
  cases h with
  | block hf' hblock =>
    rw [hf] at hf'
    cases hf'
    rw [hkind] at hblock
    cases hblock
  | activation hf' hcaller h =>
    rw [hf] at hf'
    cases hf'
    exact ⟨_, hcaller, h⟩

end Deep

end Store

/-!
# Walks along frames

The engine walks along frames to look a name up, to find the activation that a frame belongs to, to assign
beyond it, and to list the calls in progress. Here the walks are loops that follow links for as long as it
takes: a loop is related to what it ends with, so one that did not end would be related to nothing. Main
statement: where frames are linked to earlier frames, each of these loops ends from every frame, and it
ends with what the walk gives that takes as many steps as its fuel allows.
-/

/-- What a list of calls says about an activation that was called from a site. -/
def Frame.recount (fr : Frame) (site : Option Span) (acc : Trace) : Trace :=
  let acc := acc.push ⟨Key.display fr.name, site⟩
  if fr.native.isEmpty then acc else acc.push ⟨Key.display fr.native, none⟩

namespace Store

/-!
## Loops
-/

/-- The loop that looks a name up, from a frame outward. -/
inductive Looks (s : Store) (name : Text) (shallow : Bool) :
    Option FrameId → Option (Value × FrameId) → Prop
  | outside : Looks s name shallow none none
  | found {f : FrameId} {fr : Frame} {v : Value} (hf : s.frame? f = some fr)
    (hv : fr.vars.get? name = some v) : Looks s name shallow (some f) (some (v, f))
  | stopped {f : FrameId} {fr : Frame} (hf : s.frame? f = some fr) (hv : fr.vars.get? name = none)
    (hstop : (shallow && fr.isBoundary) = true) : Looks s name shallow (some f) none
  | onward {f : FrameId} {fr : Frame} {r : Option (Value × FrameId)} (hf : s.frame? f = some fr)
    (hv : fr.vars.get? name = none) (hstop : (shallow && fr.isBoundary) = false)
    (h : Looks s name shallow fr.outer r) : Looks s name shallow (some f) r

/-- The loop that finds the nearest boundary. -/
inductive Bounds (s : Store) : Option FrameId → Option FrameId → Prop
  | outside : Bounds s none none
  | here {f : FrameId} {fr : Frame} (hf : s.frame? f = some fr) (hkind : fr.isBoundary = true) :
    Bounds s (some f) (some f)
  | onward {f : FrameId} {fr : Frame} {r : Option FrameId} (hf : s.frame? f = some fr)
    (hkind : fr.isBoundary = false) (h : Bounds s fr.outer r) : Bounds s (some f) r

/-- Assigning beyond the current function, which runs both loops. -/
inductive SetsOuter (s : Store) (f : FrameId) (name : Text) (v : Value) : Store → Prop
  | loose (hb : s.Bounds (some f) none) : SetsOuter s f name v (s.define f name v)
  | root {b : FrameId} {fr : Frame} (hb : s.Bounds (some f) (some b)) (hfr : s.frame? b = some fr)
    (houter : fr.outer = none) : SetsOuter s f name v (s.define b name v)
  | bound {b around owner : FrameId} {fr : Frame} {u : Value} (hb : s.Bounds (some f) (some b))
    (hfr : s.frame? b = some fr) (houter : fr.outer = some around)
    (hlook : s.Looks name false (some around) (some (u, owner))) :
    SetsOuter s f name v (s.define owner name v)
  | fresh {b around : FrameId} {fr : Frame} (hb : s.Bounds (some f) (some b))
    (hfr : s.frame? b = some fr) (houter : fr.outer = some around)
    (hlook : s.Looks name false (some around) none) :
    SetsOuter s f name v (s.define around name v)

/-- The loop that lists calls from a boundary on, each time from the boundary of the caller. -/
inductive Recounts (s : Store) : Option FrameId → Option Span → Trace → Trace → Prop
  | outside {site : Option Span} {acc : Trace} : Recounts s none site acc acc
  | last {b : FrameId} {fr : Frame} {site : Option Span} {acc : Trace} (hb : s.frame? b = some fr)
    (hcaller : fr.caller = none) : Recounts s (some b) site acc (fr.recount site acc)
  | onward {b g : FrameId} {fr : Frame} {site : Option Span} {acc t : Trace} {r : Option FrameId}
    (hb : s.frame? b = some fr) (hcaller : fr.caller = some g) (hbounds : s.Bounds (some g) r)
    (h : Recounts s r fr.site (fr.recount site acc) t) : Recounts s (some b) site acc t

/-- Every walk from the frame ends, with what the engine takes it to end with. -/
structure WalksEnd (s : Store) (f : FrameId) : Prop where
  lookup : ∀ name shallow r, s.Looks name shallow (some f) r ↔ r = s.lookup (some f) name shallow
  boundary : ∀ r, s.Bounds (some f) r ↔ r = s.boundary (some f)
  setOuter : ∀ name v s', s.SetsOuter f name v s' ↔ s' = s.setOuter f name v
  trace : ∀ site t, s.Recounts (s.boundary (some f)) site #[] t ↔
    t = Machine.traceFrom s (s.frames.size + 1) (s.boundary (some f)) site #[]

variable {s s' : Store} {f : FrameId} {fr : Frame} {start : Option FrameId} {name : Text}
  {shallow : Bool} {v : Value}

/-!
## A loop ends with one thing
-/

theorem Looks.unique {r r' : Option (Value × FrameId)} (h : s.Looks name shallow start r)
    (h' : s.Looks name shallow start r') : r = r' := by
  induction h with
  | outside =>
    cases h'
    rfl
  | found hf hv =>
    cases h' with
    | found hf' hv' =>
      cases hf.symm.trans hf'
      cases hv.symm.trans hv'
      rfl
    | stopped hf' hv' | onward hf' hv' =>
      cases hf.symm.trans hf'
      cases hv.symm.trans hv'
  | stopped hf hv hstop =>
    cases h' with
    | found hf' hv' =>
      cases hf.symm.trans hf'
      cases hv.symm.trans hv'
    | stopped => rfl
    | onward hf' _ hstop' =>
      cases hf.symm.trans hf'
      cases hstop.symm.trans hstop'
  | onward hf hv hstop _ ih =>
    cases h' with
    | found hf' hv' =>
      cases hf.symm.trans hf'
      cases hv.symm.trans hv'
    | stopped hf' _ hstop' =>
      cases hf.symm.trans hf'
      cases hstop.symm.trans hstop'
    | onward hf' _ _ h' =>
      cases hf.symm.trans hf'
      exact ih h'

theorem Bounds.unique {r r' : Option FrameId} (h : s.Bounds start r) (h' : s.Bounds start r') :
    r = r' := by
  induction h with
  | outside =>
    cases h'
    rfl
  | here hf hkind =>
    cases h' with
    | here => rfl
    | onward hf' hkind' =>
      cases hf.symm.trans hf'
      cases hkind.symm.trans hkind'
  | onward hf hkind _ ih =>
    cases h' with
    | here hf' hkind' =>
      cases hf.symm.trans hf'
      cases hkind.symm.trans hkind'
    | onward hf' _ h' =>
      cases hf.symm.trans hf'
      exact ih h'

theorem Recounts.unique {b : Option FrameId} {site : Option Span} {acc t t' : Trace}
    (h : s.Recounts b site acc t) (h' : s.Recounts b site acc t') : t = t' := by
  induction h with
  | outside =>
    cases h'
    rfl
  | last hb hcaller =>
    cases h' with
    | last hb' =>
      cases hb.symm.trans hb'
      rfl
    | onward hb' hcaller' =>
      cases hb.symm.trans hb'
      cases hcaller.symm.trans hcaller'
  | onward hb hcaller hbounds _ ih =>
    cases h' with
    | last hb' hcaller' =>
      cases hb.symm.trans hb'
      cases hcaller.symm.trans hcaller'
    | onward hb' hcaller' hbounds' h' =>
      cases hb.symm.trans hb'
      cases hcaller.symm.trans hcaller'
      cases hbounds.unique hbounds'
      exact ih h'

/-!
## Every loop ends
-/

theorem Ordered.hasFrame_outer (hs : s.Ordered) (hf : s.frame? f = some fr) : s.HasFrame fr.outer :=
  fun g hg => Nat.lt_trans (hs f fr hf g hg) (lt_of_frame? hf)

/-- A walk from the frame around another one needs less fuel. -/
theorem Ordered.walkFuel_outer (hs : s.Ordered) (hf : s.frame? f = some fr) : walkFuel fr.outer ≤ f := by
  cases houter : fr.outer with
  | none => exact Nat.zero_le f
  | some g => exact hs f fr hf g houter

theorem Ordered.looks_lookupFrom (hs : s.Ordered) (name : Text) (shallow : Bool) {fuel : Nat}
    (hstart : s.HasFrame start) (hfuel : walkFuel start ≤ fuel) :
    s.Looks name shallow start (s.lookupFrom name shallow fuel start) := by
  induction fuel generalizing start with
  | zero =>
    cases start with
    | none => exact .outside
    | some f => exact absurd hfuel (Nat.not_succ_le_zero f)
  | succ fuel ih =>
    cases start with
    | none => exact .outside
    | some f =>
      obtain ⟨fr, hf⟩ := exists_frame (hstart f rfl)
      rw [lookupFrom, hf]
      dsimp only
      cases hv : fr.vars.get? name with
      | some v => exact .found hf hv
      | none =>
        dsimp only
        cases hstop : shallow && fr.isBoundary with
        | true => exact .stopped hf hv hstop
        | false =>
          have hless : walkFuel fr.outer ≤ fuel :=
            Nat.le_trans (hs.walkFuel_outer hf) (Nat.le_of_succ_le_succ hfuel)
          exact .onward hf hv hstop (ih (hs.hasFrame_outer hf) hless)

theorem Ordered.bounds_boundaryFrom (hs : s.Ordered) {fuel : Nat} (hstart : s.HasFrame start)
    (hfuel : walkFuel start ≤ fuel) : s.Bounds start (s.boundaryFrom fuel start) := by
  induction fuel generalizing start with
  | zero =>
    cases start with
    | none => exact .outside
    | some f => exact absurd hfuel (Nat.not_succ_le_zero f)
  | succ fuel ih =>
    cases start with
    | none => exact .outside
    | some f =>
      obtain ⟨fr, hf⟩ := exists_frame (hstart f rfl)
      rw [boundaryFrom, hf]
      dsimp only
      cases hkind : fr.isBoundary with
      | true => exact .here hf hkind
      | false =>
        have hless : walkFuel fr.outer ≤ fuel :=
          Nat.le_trans (hs.walkFuel_outer hf) (Nat.le_of_succ_le_succ hfuel)
        exact .onward hf hkind (ih (hs.hasFrame_outer hf) hless)

/-- Looking a name up ends, with what the walk finds. -/
theorem Ordered.looks_iff (hs : s.Ordered) (hstart : s.HasFrame start) {r : Option (Value × FrameId)} :
    s.Looks name shallow start r ↔ r = s.lookup start name shallow := by
  have hlooks : s.Looks name shallow start (s.lookup start name shallow) :=
    hs.looks_lookupFrom name shallow hstart (Nat.le_refl _)
  constructor
  · exact fun h => h.unique hlooks
  · rintro rfl
    exact hlooks

/-- Finding the boundary ends, with the one that the walk finds. -/
theorem Ordered.bounds_iff (hs : s.Ordered) (hstart : s.HasFrame start) {r : Option FrameId} :
    s.Bounds start r ↔ r = s.boundary start := by
  have hbounds : s.Bounds start (s.boundary start) := hs.bounds_boundaryFrom hstart (Nat.le_refl _)
  constructor
  · exact fun h => h.unique hbounds
  · rintro rfl
    exact hbounds

/-- The boundary of a frame is the frame itself or one that was there before. -/
theorem Bounds.spec {b : FrameId} {r : Option FrameId} (h : s.Bounds start r) (hs : s.Ordered)
    (hr : r = some b) : b < walkFuel start ∧ b < s.frames.size := by
  induction h with
  | outside => cases hr
  | @here f fr hf _ =>
    cases hr
    exact ⟨Nat.lt_succ_self b, lt_of_frame? hf⟩
  | @onward f fr r hf _ _ ih =>
    obtain ⟨hbefore, hb⟩ := ih hr
    exact ⟨Nat.lt_succ_of_lt (Nat.lt_of_lt_of_le hbefore (hs.walkFuel_outer hf)), hb⟩

/-- Assigning beyond the function ends, with the binding that the walks find written. -/
theorem Ordered.setsOuter_iff (hs : s.Ordered) (hf : f < s.frames.size) :
    s.SetsOuter f name v s' ↔ s' = s.setOuter f name v := by
  have hstart := hasFrame_some hf
  constructor
  · intro h
    unfold setOuter
    cases h with
    | loose hb => rw [← (hs.bounds_iff hstart).mp hb]
    | root hb hfr houter =>
      rw [← (hs.bounds_iff hstart).mp hb]
      simp only [hfr, Option.bind_some, houter]
    | bound hb hfr houter hlook | fresh hb hfr houter hlook =>
      have haround := hs.hasFrame_outer hfr
      rw [houter] at haround
      rw [← (hs.bounds_iff hstart).mp hb]
      simp only [hfr, Option.bind_some, houter, ← (hs.looks_iff haround).mp hlook]
  · rintro rfl
    have hbounds := (hs.bounds_iff hstart).mpr rfl
    unfold setOuter
    cases hb : s.boundary (some f) with
    | none => exact .loose (hb ▸ hbounds)
    | some b =>
      rw [hb] at hbounds
      obtain ⟨fr, hfr⟩ := exists_frame (hbounds.spec hs rfl).2
      simp only [hfr, Option.bind_some]
      cases houter : fr.outer with
      | none => exact .root hbounds hfr houter
      | some around =>
        have haround := hs.hasFrame_outer hfr
        rw [houter] at haround
        have hlooks : s.Looks name false (some around) (s.lookup (some around) name false) :=
          (hs.looks_iff haround).mpr rfl
        dsimp only
        cases hlook : s.lookup (some around) name false with
        | none => exact .fresh hbounds hfr houter (hlook ▸ hlooks)
        | some found =>
          obtain ⟨u, owner⟩ := found
          exact .bound hbounds hfr houter (hlook ▸ hlooks)

/-- Listing the calls ends. -/
theorem Linked.recounts_traceFrom (hs : s.Linked) {fuel : Nat} {site : Option Span} {acc : Trace}
    (hstart : s.HasFrame start) (hfuel : walkFuel start ≤ fuel) :
    s.Recounts start site acc (Machine.traceFrom s fuel start site acc) := by
  induction fuel generalizing start site acc with
  | zero =>
    cases start with
    | none => exact .outside
    | some f => exact absurd hfuel (Nat.not_succ_le_zero f)
  | succ fuel ih =>
    cases start with
    | none => exact .outside
    | some b =>
      obtain ⟨fr, hb⟩ := exists_frame (hstart b rfl)
      rw [Machine.traceFrom, hb]
      dsimp only
      cases hcaller : fr.caller with
      | none => exact .last hb hcaller
      | some g =>
        have hg : g < b := hs.callers b fr hb g hcaller
        have hcalls := hasFrame_some (Nat.lt_trans hg (lt_of_frame? hb))
        have hbounds := (hs.outer.bounds_iff hcalls).mpr rfl
        refine .onward hb hcaller hbounds (ih ?_ ?_)
        · exact fun b' hb' => (hbounds.spec hs.outer hb').2
        · cases hr : s.boundary (some g) with
          | none => exact Nat.zero_le fuel
          | some b' =>
            have hb' : b' ≤ g := Nat.le_of_lt_succ (hbounds.spec hs.outer hr).1
            exact Nat.lt_of_le_of_lt hb' (Nat.lt_of_lt_of_le hg (Nat.le_of_succ_le_succ hfuel))

/-- Listing the calls from the boundary of a frame on ends, with the calls that the walk lists. -/
theorem Linked.recounts_iff (hs : s.Linked) (hf : f < s.frames.size) {site : Option Span} {t : Trace} :
    s.Recounts (s.boundary (some f)) site #[] t ↔
      t = Machine.traceFrom s (s.frames.size + 1) (s.boundary (some f)) site #[] := by
  have hstart := hasFrame_some hf
  have hbounds := (hs.outer.bounds_iff hstart).mpr rfl
  have hrecounts : s.Recounts (s.boundary (some f)) site #[]
      (Machine.traceFrom s (s.frames.size + 1) (s.boundary (some f)) site #[]) := by
    refine hs.recounts_traceFrom (fun b hb => (hbounds.spec hs.outer hb).2) ?_
    cases hr : s.boundary (some f) with
    | none => exact Nat.zero_le _
    | some b => exact Nat.succ_le_succ (Nat.le_of_lt (hbounds.spec hs.outer hr).2)
  constructor
  · exact fun h => h.unique hrecounts
  · rintro rfl
    exact hrecounts

theorem Linked.walksEnd (hs : s.Linked) (hf : f < s.frames.size) : s.WalksEnd f := by
  have hstart := hasFrame_some hf
  exact ⟨fun _ _ _ => hs.outer.looks_iff hstart, fun _ => hs.outer.bounds_iff hstart,
    fun _ _ _ => hs.outer.setsOuter_iff hf, fun _ _ => hs.recounts_iff hf⟩

end Store
end ScriptEngine
