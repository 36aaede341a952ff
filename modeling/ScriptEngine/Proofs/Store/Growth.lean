import ScriptEngine.Store.Frames
import ScriptEngine.Value.Copy

/-!
# How the store grows

Work on values never removes a frame or a closure, and never moves the links of a frame or the
entry of a closure. Closures that are new have the entry of an older one: only the instruction that
builds a closure brings a new entry into the store.
-/

namespace ScriptEngine
namespace Store

/-- Frames keep their links and closures keep their entries. -/
structure Extends (s s' : Store) : Prop where
  frames : ∀ f fr, s.frame? f = some fr →
    ∃ fr', s'.frame? f = some fr' ∧ fr'.kind = fr.kind ∧ fr'.outer = fr.outer
  closures : ∀ c cl, s.closure? c = some cl → ∃ cl', s'.closure? c = some cl' ∧ cl'.entry = cl.entry

/-- The second store came out of the first by work on values. -/
structure Grows (s s' : Store) : Prop extends Extends s s' where
  entries : ∀ c cl', s'.closure? c = some cl' → ∃ c₀ cl, s.closure? c₀ = some cl ∧ cl.entry = cl'.entry

namespace Extends

variable {s s' s'' : Store}

theorem trans (h : s.Extends s') (h' : s'.Extends s'') : s.Extends s'' where
  frames f fr hf := by
    obtain ⟨fr', hf', hkind, houter⟩ := h.frames f fr hf
    obtain ⟨fr'', hf'', hkind', houter'⟩ := h'.frames f fr' hf'
    exact ⟨fr'', hf'', hkind'.trans hkind, houter'.trans houter⟩
  closures c cl hc := by
    obtain ⟨cl', hc', hentry⟩ := h.closures c cl hc
    obtain ⟨cl'', hc'', hentry'⟩ := h'.closures c cl' hc'
    exact ⟨cl'', hc'', hentry'.trans hentry⟩

theorem newClosure (s : Store) (cl : Closure) : s.Extends (s.newClosure cl).2 where
  frames _ fr hf := ⟨fr, hf, rfl, rfl⟩
  closures c cl' hc := by
    have hlt : c < s.closures.size := (Array.getElem?_eq_some_iff.mp hc).1
    refine ⟨cl', ?_, rfl⟩
    show (s.closures.push cl)[c]? = some cl'
    rw [Array.getElem?_push_lt hlt, ← hc]
    exact (Array.getElem?_eq_getElem hlt).symm

/-- No closure is lost. -/
theorem size_closures (h : s.Extends s') : s.closures.size ≤ s'.closures.size := by
  rcases Nat.lt_or_ge s'.closures.size s.closures.size with hlt | hge
  · have hsome : s.closure? s'.closures.size = some s.closures[s'.closures.size] :=
      Array.getElem?_eq_getElem hlt
    obtain ⟨cl, hcl, -⟩ := h.closures _ _ hsome
    exact absurd (Array.getElem?_eq_some_iff.mp hcl).1 (Nat.lt_irrefl _)
  · exact hge

end Extends

namespace Grows

variable {s s' s'' : Store}

theorem refl (s : Store) : s.Grows s where
  frames _ fr h := ⟨fr, h, rfl, rfl⟩
  closures _ cl h := ⟨cl, h, rfl⟩
  entries c cl h := ⟨c, cl, h, rfl⟩

theorem trans (h : s.Grows s') (h' : s'.Grows s'') : s.Grows s'' where
  toExtends := h.toExtends.trans h'.toExtends
  entries c cl hc := by
    obtain ⟨c', cl', hc', hentry⟩ := h'.entries c cl hc
    obtain ⟨c₀, cl₀, hc₀, hentry₀⟩ := h.entries c' cl' hc'
    exact ⟨c₀, cl₀, hc₀, hentry₀.trans hentry⟩

/-- Frames and closures are as they were. -/
theorem of_same (hframes : s'.frames = s.frames) (hclosures : s'.closures = s.closures) :
    s.Grows s' := by
  have hframe : s'.frame? = s.frame? := by
    funext f
    rw [frame?, frame?, hframes]
  have hclosure : s'.closure? = s.closure? := by
    funext c
    rw [closure?, closure?, hclosures]
  refine ⟨⟨?_, ?_⟩, ?_⟩
  · rw [hframe]
    exact (refl s).frames
  · rw [hclosure]
    exact (refl s).closures
  · rw [hclosure]
    exact (refl s).entries

/-- Frames were added, closures are as they were. -/
theorem of_frames (hframes : ∀ f fr, s.frame? f = some fr →
      ∃ fr', s'.frame? f = some fr' ∧ fr'.kind = fr.kind ∧ fr'.outer = fr.outer)
    (hclosures : s'.closures = s.closures) : s.Grows s' := by
  have hclosure : s'.closure? = s.closure? := by
    funext c
    rw [closure?, closure?, hclosures]
  refine ⟨⟨hframes, ?_⟩, ?_⟩
  · rw [hclosure]
    exact (refl s).closures
  · rw [hclosure]
    exact (refl s).entries

theorem newFrame (s : Store) (fr : Frame) : s.Grows (s.newFrame fr).2 := by
  refine of_frames ?_ rfl
  intro f fr' hf
  refine ⟨fr', ?_, rfl, rfl⟩
  have hlt : f < s.frames.size := (Array.getElem?_eq_some_iff.mp hf).1
  show (s.frames.push fr)[f]? = some fr'
  rw [Array.getElem?_push_lt hlt, ← hf]
  exact (Array.getElem?_eq_getElem hlt).symm

theorem define (s : Store) (f : FrameId) (name : Text) (v : Value) :
    s.Grows (s.define f name v) := by
  refine of_frames ?_ rfl
  intro f' fr hf
  show ∃ fr', (s.frames.modify f _)[f']? = some fr' ∧ _
  rw [Array.getElem?_modify]
  by_cases heq : f = f'
  · rw [if_pos heq, show s.frames[f']? = some fr from hf]
    exact ⟨_, rfl, rfl, rfl⟩
  · rw [if_neg heq]
    exact ⟨fr, hf, rfl, rfl⟩

theorem setNearest (s : Store) (f : FrameId) (name : Text) (v : Value) :
    s.Grows (s.setNearest f name v) := by
  unfold Store.setNearest
  split
  · exact define s _ name v
  · exact define s f name v

theorem setOuter (s : Store) (f : FrameId) (name : Text) (v : Value) :
    s.Grows (s.setOuter f name v) := by
  unfold Store.setOuter
  split
  · exact define s f name v
  split
  · exact define s _ name v
  split
  · exact define s _ name v
  · exact define s _ name v

/-- A closure whose entry some closure of the store has already. -/
theorem newClosure {c₀ : ClosureId} {cl cl₀ : Closure} (h : s.closure? c₀ = some cl₀)
    (hentry : cl₀.entry = cl.entry) : s.Grows (s.newClosure cl).2 where
  toExtends := .newClosure s cl
  entries c cl' hc := by
    have hc : (s.closures.push cl)[c]? = some cl' := hc
    rw [Array.getElem?_push] at hc
    split at hc
    · cases hc
      exact ⟨c₀, cl₀, h, hentry⟩
    · exact ⟨c, cl', hc, rfl⟩

/-- Closures changed in place without their entries. -/
theorem modifyClosure (s : Store) (c : ClosureId) {f : Closure → Closure}
    (hf : ∀ cl, (f cl).entry = cl.entry) :
    s.Grows { s with closures := s.closures.modify c f } where
  frames _ fr h := ⟨fr, h, rfl, rfl⟩
  closures c' cl hc := by
    have hc : s.closures[c']? = some cl := hc
    show ∃ cl', (s.closures.modify c f)[c']? = some cl' ∧ _
    rw [Array.getElem?_modify, hc]
    split
    · exact ⟨_, rfl, hf cl⟩
    · exact ⟨cl, rfl, rfl⟩
  entries c' cl hc := by
    have hc : (s.closures.modify c f)[c']? = some cl := hc
    rw [Array.getElem?_modify] at hc
    split at hc
    · obtain ⟨cl₀, hcl₀, rfl⟩ := Option.map_eq_some_iff.mp hc
      exact ⟨c', cl₀, hcl₀, (hf cl₀).symm⟩
    · exact ⟨c', cl, hc, rfl⟩

theorem copy (s : Store) (v : Value) : s.Grows (s.copy v).2 := by
  cases v with
  | closure c =>
    unfold Store.copy
    cases hc : s.closure? c with
    | none =>
      simp only [hc]
      exact refl s
    | some cl =>
      simp only [hc]
      exact newClosure hc rfl
  | inst i =>
    unfold Store.copy
    cases hi : s.instance? i with
    | none =>
      simp only [hi]
      exact refl s
    | some inst =>
      simp only [hi]
      exact of_same rfl rfl
  | list l => exact of_same rfl rfl
  | dict d => exact of_same rfl rfl
  | _ => exact refl s

end Grows

/-!
# Frames above a boundary
-/

/-- The frame lies `n` blocks above a boundary frame. -/
inductive Above (s : Store) : FrameId → Nat → FrameId → Prop
  | here {b : FrameId} {fr : Frame} (hb : s.frame? b = some fr) (hkind : fr.isBoundary = true) :
    Above s b 0 b
  | block {f f' b : FrameId} {n : Nat} {fr : Frame} (hf : s.frame? f = some fr)
    (hkind : fr.kind = .block) (houter : fr.outer = some f') (hlt : f' < f) (h : Above s f' n b) :
    Above s f (n + 1) b

variable {s s' : Store} {f b : FrameId} {n : Nat}

theorem Above.extends (h : s.Above f n b) (hgrows : s.Extends s') : s'.Above f n b := by
  induction h with
  | here hb hkind =>
    obtain ⟨fr', hb', hkind', -⟩ := hgrows.frames _ _ hb
    refine .here hb' ?_
    unfold Frame.isBoundary at hkind ⊢
    rw [hkind']
    exact hkind
  | block hf hkind houter hlt _ ih =>
    obtain ⟨fr', hf', hkind', houter'⟩ := hgrows.frames _ _ hf
    exact .block hf' (hkind'.trans hkind) (houter'.trans houter) hlt ih

/-- The walk to the boundary takes as many steps as there are blocks. -/
theorem Above.boundary (h : s.Above f n b) : s.boundary (some f) = some b := by
  have hwalk : ∀ fuel : Nat, f < fuel → s.boundaryFrom fuel (some f) = some b := by
    induction h with
    | here hb hkind =>
      intro fuel hfuel
      obtain ⟨k, rfl⟩ := Nat.exists_eq_add_one_of_ne_zero (Nat.ne_of_gt (Nat.zero_lt_of_lt hfuel))
      rw [boundaryFrom, hb]
      simp only [hkind, if_true]
    | block hf hkind houter hlt _ ih =>
      intro fuel hfuel
      obtain ⟨k, rfl⟩ := Nat.exists_eq_add_one_of_ne_zero (Nat.ne_of_gt (Nat.zero_lt_of_lt hfuel))
      rw [boundaryFrom, hf]
      simp only [Frame.isBoundary, hkind, houter, Bool.false_eq_true, if_false]
      exact ih k (Nat.lt_of_lt_of_le hlt (Nat.le_of_lt_succ hfuel))
  exact hwalk _ (Nat.lt_succ_self f)

/-- The frame itself is there. -/
theorem Above.frame (h : s.Above f n b) : ∃ fr, s.frame? f = some fr := by
  cases h with
  | here hb => exact ⟨_, hb⟩
  | block hf => exact ⟨_, hf⟩

/-- The frame at the boundary itself. -/
theorem Above.boundaryFrame (h : s.Above f n b) :
    ∃ fr, s.frame? b = some fr ∧ fr.isBoundary = true := by
  induction h with
  | here hb hkind => exact ⟨_, hb, hkind⟩
  | block _ _ _ _ _ ih => exact ih

/-- A frame has one height above its boundary. -/
theorem Above.unique {n' : Nat} {b' : FrameId} (h : s.Above f n b) (h' : s.Above f n' b') :
    n = n' ∧ b = b' := by
  induction h generalizing n' with
  | here hb hkind =>
    cases h' with
    | here => exact ⟨rfl, rfl⟩
    | block hf hkind' =>
      rw [hb] at hf
      cases hf
      rw [Frame.isBoundary, hkind'] at hkind
      cases hkind
  | block hf hkind houter hlt _ ih =>
    cases h' with
    | here hb hkind' =>
      rw [hf] at hb
      cases hb
      rw [Frame.isBoundary, hkind] at hkind'
      cases hkind'
    | block hf' _ houter' _ h' =>
      rw [hf] at hf'
      cases hf'
      rw [houter] at houter'
      cases houter'
      obtain ⟨hn, hb⟩ := ih h'
      exact ⟨congrArg (· + 1) hn, hb⟩

end Store
end ScriptEngine
