import ScriptEngine.Proofs.Store.Growth

/-!
# Where names are bound

Work on the store binds names in few frames. The frames of one function, from the current one out to
its boundary, are those that an assignment inside the function can reach; they come after the
boundary in the store.
-/

namespace ScriptEngine

namespace Store

/-- The frame holds a binding of the name. -/
def Binds (s : Store) (f : FrameId) (name : Text) : Prop :=
  ∃ fr, s.frame? f = some fr ∧ (fr.vars.get? name).isSome = true

/-- The frame `g` is `f` itself or one around it inside the same function. -/
inductive Inside (s : Store) : FrameId → FrameId → Prop
  | here {f : FrameId} : Inside s f f
  | outer {f f' g : FrameId} {fr : Frame} (hf : s.frame? f = some fr)
    (hkind : fr.isBoundary = false) (houter : fr.outer = some f') (h : Inside s f' g) :
    Inside s f g

/-- The store came out of the other by work on values and by binding names in frames of `own`. -/
structure Rewrites (own : FrameId → Prop) (s s' : Store) : Prop extends Grows s s' where
  size : s'.frames.size = s.frames.size
  others : ∀ f, ¬ own f → s'.frame? f = s.frame? f
  binds : ∀ f name, s.Binds f name → s'.Binds f name

namespace Rewrites

variable {own own' : FrameId → Prop} {s s' s'' : Store}

theorem of_frames (hgrows : s.Grows s') (hframes : s'.frames = s.frames) : s.Rewrites own s' := by
  have hframe : s'.frame? = s.frame? := by
    funext f
    rw [frame?, frame?, hframes]
  refine ⟨hgrows, congrArg Array.size hframes, ?_, ?_⟩
  · intro f _
    rw [hframe]
  · intro f name h
    unfold Binds
    rw [hframe]
    exact h

theorem refl (s : Store) : s.Rewrites own s :=
  of_frames (.refl s) rfl

theorem trans (h : s.Rewrites own s') (h' : s'.Rewrites own s'') : s.Rewrites own s'' where
  toGrows := h.toGrows.trans h'.toGrows
  size := h'.size.trans h.size
  others f hf := (h'.others f hf).trans (h.others f hf)
  binds f name hb := h'.binds f name (h.binds f name hb)

theorem mono (h : s.Rewrites own s') (hown : ∀ f, own f → own' f) : s.Rewrites own' s' where
  toGrows := h.toGrows
  size := h.size
  others f hf := h.others f fun hf' => hf (hown f hf')
  binds := h.binds

theorem define (s : Store) {f : FrameId} (hf : own f) (name : Text) (v : Value) :
    s.Rewrites own (s.define f name v) where
  toGrows := .define s f name v
  size := Array.size_modify
  others g hg := by
    have hne : f ≠ g := by
      rintro rfl
      exact hg hf
    show (s.frames.modify f _)[g]? = s.frames[g]?
    rw [Array.getElem?_modify, if_neg hne]
  binds g name' hb := by
    obtain ⟨fr, hfr, hbound⟩ := hb
    have hfr : s.frames[g]? = some fr := hfr
    show ∃ fr', (s.frames.modify f _)[g]? = some fr' ∧ _
    rw [Array.getElem?_modify, hfr]
    by_cases heq : f = g
    · rw [if_pos heq]
      refine ⟨_, rfl, ?_⟩
      rw [Table.get?_insert]
      split
      · rfl
      · exact hbound
    · rw [if_neg heq]
      exact ⟨fr, rfl, hbound⟩

/-- Links are as they were, and no frame is new. -/
theorem inside (h : s.Rewrites own s') {f g : FrameId} (hg : s'.Inside f g) : s.Inside f g := by
  induction hg with
  | here => exact .here
  | @outer f f' g fr' hf hkind houter _ ih =>
    have hlt : f < s.frames.size := h.size ▸ (Array.getElem?_eq_some_iff.mp hf).1
    have hfr : s.frame? f = some s.frames[f] := Array.getElem?_eq_getElem hlt
    obtain ⟨fr₁, hfr₁, hkind₁, houter₁⟩ := h.frames f _ hfr
    rw [hf] at hfr₁
    cases hfr₁
    refine .outer hfr ?_ (houter₁.symm.trans houter) ih
    unfold Frame.isBoundary at hkind ⊢
    rw [← hkind₁]
    exact hkind

end Rewrites

theorem binds_define {s : Store} {f : FrameId} {fr : Frame} (hf : s.frame? f = some fr) (name : Text)
    (v : Value) : (s.define f name v).Binds f name := by
  have hf : s.frames[f]? = some fr := hf
  refine ⟨{ fr with vars := fr.vars.insert name v }, ?_, ?_⟩
  · show (s.frames.modify f _)[f]? = _
    rw [Array.getElem?_modify, if_pos rfl, hf]
    rfl
  · rw [Table.get?_insert, if_pos rfl]
    rfl

/-- A new frame leaves those that were there. -/
theorem frame?_newFrame_of_lt {s : Store} {f : FrameId} (fr : Frame) (hlt : f < s.frames.size) :
    (s.newFrame fr).2.frame? f = s.frame? f := by
  show (s.frames.push fr)[f]? = s.frames[f]?
  rw [Array.getElem?_push_lt hlt]
  exact (Array.getElem?_eq_getElem hlt).symm

theorem Binds.newFrame {s : Store} {f : FrameId} {name : Text} (fr : Frame) (h : s.Binds f name) :
    (s.newFrame fr).2.Binds f name := by
  obtain ⟨fr', hf, hbound⟩ := h
  refine ⟨fr', ?_, hbound⟩
  rw [frame?_newFrame_of_lt fr (Array.getElem?_eq_some_iff.mp hf).1, hf]

/-- A shallow walk finds a frame of the same function. -/
theorem lookup_inside {s : Store} {f g : FrameId} {name : Text} {v : Value}
    (h : s.lookup (some f) name true = some (v, g)) : s.Inside f g := by
  have hwalk : ∀ (fuel : Nat) (f : FrameId),
      s.lookupFrom name true fuel (some f) = some (v, g) → s.Inside f g := by
    intro fuel
    induction fuel with
    | zero =>
      intro f h
      cases h
    | succ fuel ih =>
      intro f h
      rw [lookupFrom] at h
      cases hf : s.frame? f with
      | none => simp only [hf, reduceCtorEq] at h
      | some fr =>
        simp only [hf] at h
        split at h
        · cases h
          exact .here
        · split at h
          · cases h
          · rename_i hblock
            cases houter : fr.outer with
            | none =>
              rw [houter] at h
              cases fuel <;> cases h
            | some f' =>
              rw [houter] at h
              refine .outer hf ?_ houter (ih f' h)
              simpa using hblock
  exact hwalk _ f h

/-- No frame is lost. -/
theorem Extends.size_frames {s s' : Store} (h : s.Extends s') : s.frames.size ≤ s'.frames.size := by
  rcases Nat.lt_or_ge s'.frames.size s.frames.size with hlt | hge
  · have hsome : s.frame? s'.frames.size = some s.frames[s'.frames.size] :=
      Array.getElem?_eq_getElem hlt
    obtain ⟨fr, hfr, -⟩ := h.frames _ _ hsome
    exact absurd (Array.getElem?_eq_some_iff.mp hfr).1 (Nat.lt_irrefl _)
  · exact hge

theorem Above.le {s : Store} {f b : FrameId} {n : Nat} (h : s.Above f n b) : b ≤ f := by
  induction h with
  | here => exact Nat.le_refl _
  | block _ _ _ hlt _ ih => exact Nat.le_of_lt (Nat.lt_of_le_of_lt ih hlt)

theorem Inside.le {s : Store} {f g b : FrameId} {n : Nat} (h : s.Inside f g) (ha : s.Above f n b) :
    b ≤ g := by
  induction h generalizing n with
  | here => exact ha.le
  | outer hf hkind houter _ ih =>
    cases ha with
    | here hb hkind' =>
      rw [hf] at hb
      cases hb
      rw [hkind] at hkind'
      cases hkind'
    | block hf' _ houter' _ ha =>
      rw [hf] at hf'
      cases hf'
      rw [houter] at houter'
      cases houter'
      exact ih ha

/-!
# What depends on frames only
-/

section
variable {s s' : Store} (h : s'.frames = s.frames)
include h

theorem frame?_of_frames (f : FrameId) : s'.frame? f = s.frame? f := by
  rw [frame?, frame?, h]

theorem lookup_of_frames (f : Option FrameId) (name : Text) (shallow : Bool) :
    s'.lookup f name shallow = s.lookup f name shallow := by
  have hwalk : ∀ (fuel : Nat) (f : Option FrameId),
      s'.lookupFrom name shallow fuel f = s.lookupFrom name shallow fuel f := by
    intro fuel
    induction fuel with
    | zero => exact fun _ => rfl
    | succ fuel ih =>
      intro f
      cases f with
      | none => rfl
      | some f => simp only [lookupFrom, frame?_of_frames h, ih]
  exact hwalk _ f

end

/-!
# What frames bind names to

A binding changes where its own name is bound in its own frame. A name that no scope around binds is
not found from there.
-/

/-- What the frame binds the name to. -/
def var (s : Store) (f : FrameId) (name : Text) : Option Value :=
  (s.frame? f).bind (·.vars.get? name)

/-- From the frame outward every scope is there, and none binds the name. -/
inductive Lacks (s : Store) (name : Text) : Option FrameId → Prop
  | nowhere : Lacks s name none
  | frame {f : FrameId} {fr : Frame} (hf : s.frame? f = some fr) (hvar : fr.vars.get? name = none)
    (h : Lacks s name fr.outer) : Lacks s name (some f)

section
variable {s s' : Store} {f g : FrameId} {fr : Frame} {name t : Text} {v : Value} {shallow : Bool}

theorem var_congr (h : s'.frame? f = s.frame? f) (name : Text) : s'.var f name = s.var f name := by
  unfold var
  rw [h]

theorem var_of_frame (hf : s.frame? f = some fr) (name : Text) : s.var f name = fr.vars.get? name := by
  unfold var
  rw [hf]
  rfl

theorem Binds.var (h : s.Binds f name) : ∃ v, s.var f name = some v := by
  obtain ⟨fr, hf, hbound⟩ := h
  obtain ⟨v, hv⟩ := Option.isSome_iff_exists.mp hbound
  exact ⟨v, (var_of_frame hf name).trans hv⟩

theorem var_define (hf : s.frame? f = some fr) (name : Text) (v : Value) :
    (s.define f name v).var f name = some v := by
  have hf : s.frames[f]? = some fr := hf
  show ((s.frames.modify f _)[f]?).bind _ = _
  rw [Array.getElem?_modify, if_pos rfl, hf]
  show (fr.vars.insert name v).get? name = _
  rw [Table.get?_insert, if_pos rfl]

theorem var_define_of_ne (s : Store) (v : Value) (h : g ≠ f ∨ t ≠ name) :
    (s.define g t v).var f name = s.var f name := by
  show ((s.frames.modify g _)[f]?).bind _ = (s.frames[f]?).bind _
  rw [Array.getElem?_modify]
  split
  · rename_i hg
    cases s.frames[f]? with
    | none => rfl
    | some fr =>
      show (fr.vars.insert t v).get? name = fr.vars.get? name
      rw [Table.get?_insert, if_neg]
      exact fun heq => h.elim (· hg) (· heq)
  · rfl

theorem lookup_of_var (h : s.var f name = some v) : s.lookup (some f) name shallow = some (v, f) := by
  obtain ⟨fr, hf, hv⟩ := Option.bind_eq_some_iff.mp h
  unfold lookup walkFuel lookupFrom
  simp only [hf, hv]

theorem Lacks.lookup {fo : Option FrameId} (h : s.Lacks name fo) : s.lookup fo name shallow = none := by
  have hwalk : ∀ fuel, s.lookupFrom name shallow fuel fo = none := by
    induction h with
    | nowhere => intro fuel; cases fuel <;> rfl
    | frame hf hvar _ ih =>
      intro fuel
      cases fuel with
      | zero => rfl
      | succ fuel =>
        unfold lookupFrom
        simp only [hf, hvar]
        split
        · rfl
        · exact ih fuel
  exact hwalk _

/-- A name that is bound nowhere outward stays so if no frame that was there gets it. -/
theorem Lacks.extends {fo : Option FrameId} (h : s.Lacks name fo) (hs : s.Extends s')
    (hvars : ∀ f < s.frames.size, s.var f name = none → s'.var f name = none) : s'.Lacks name fo := by
  induction h with
  | nowhere => exact .nowhere
  | @frame f fr hf hvar _ ih =>
    obtain ⟨fr', hf', -, houter⟩ := hs.frames _ _ hf
    have hlt : f < s.frames.size := (Array.getElem?_eq_some_iff.mp hf).1
    have hnone := hvars f hlt ((var_of_frame hf name).trans hvar)
    exact .frame hf' ((var_of_frame hf' name).symm.trans hnone) (houter ▸ ih)

end

end Store
end ScriptEngine
