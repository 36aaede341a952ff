import ScriptEngine.Store.Frames

/-!
# Which binding an assignment writes

The frames from one outward form a chain: first those of the current function, up to its boundary, then
those beyond. An assignment inside the function writes the innermost frame of the first part that binds
the name, an assignment to the outside the innermost frame of the second part; where no frame binds it,
the first frame of the part gets it. All other bindings, and what other names lead to, stay.
-/

namespace ScriptEngine
namespace Store

/-!
## Chains
-/

/-- Frames lie inside frames that were there before. Frames are numbered as they are made, so this says
that every chain of frames ends and passes no frame twice. -/
def Ordered (s : Store) : Prop :=
  ∀ f fr, s.frame? f = some fr → ∀ g, fr.outer = some g → g < f

/-- The frames from one outward. -/
inductive Outward (s : Store) : Option FrameId → List FrameId → Prop
  | outside : Outward s none []
  | frame {f : FrameId} {fr : Frame} {fs : List FrameId} (hf : s.frame? f = some fr)
    (h : Outward s fr.outer fs) : Outward s (some f) (f :: fs)

variable {s s' : Store} {f g : FrameId} {start : Option FrameId} {fs : List FrameId}
  {name m : Text} {v : Value}

theorem exists_frame (hf : f < s.frames.size) : ∃ fr, s.frame? f = some fr :=
  ⟨s.frames[f], Array.getElem?_eq_getElem hf⟩

theorem lt_of_frame? {fr : Frame} (hf : s.frame? f = some fr) : f < s.frames.size :=
  (Array.getElem?_eq_some_iff.mp hf).1

theorem Ordered.chain (hs : s.Ordered) (hf : f < s.frames.size) : ∃ fs, s.Outward (some f) fs := by
  induction f using Nat.strongRecOn with
  | ind f ih =>
    obtain ⟨fr, hfr⟩ := exists_frame hf
    cases houter : fr.outer with
    | none => exact ⟨[f], .frame hfr (houter ▸ .outside)⟩
    | some g =>
      have hg : g < f := hs f fr hfr g houter
      obtain ⟨fs, hfs⟩ := ih g hg (Nat.lt_trans hg hf)
      exact ⟨f :: fs, .frame hfr (houter ▸ hfs)⟩

/-- A chain leads to earlier and earlier frames. -/
theorem Outward.descends (h : s.Outward start fs) (hs : s.Ordered) :
    (∀ g ∈ fs, g < walkFuel start) ∧ fs.Pairwise fun a b => b < a := by
  induction h with
  | outside => exact ⟨nofun, .nil⟩
  | @frame f fr fs hf _ ih =>
    have hfuel : walkFuel fr.outer ≤ f := by
      cases houter : fr.outer with
      | none => exact Nat.zero_le f
      | some g => exact hs f fr hf g houter
    have hlt : ∀ g ∈ fs, g < f := fun g hg => Nat.lt_of_lt_of_le (ih.1 g hg) hfuel
    refine ⟨fun g hg => ?_, List.pairwise_cons.mpr ⟨hlt, ih.2⟩⟩
    rcases List.mem_cons.mp hg with rfl | hg
    · exact Nat.lt_succ_self g
    · exact Nat.lt_succ_of_lt (hlt g hg)

/-- A walk along a chain does not run out of fuel. -/
theorem Outward.length_le (h : s.Outward start fs) (hs : s.Ordered) : fs.length ≤ walkFuel start := by
  induction h with
  | outside => exact Nat.le_refl 0
  | @frame f fr fs hf _ ih =>
    refine Nat.succ_le_succ (Nat.le_trans ih ?_)
    cases houter : fr.outer with
    | none => exact Nat.zero_le f
    | some g => exact hs f fr hf g houter

theorem Outward.frame_lt (h : s.Outward start fs) : ∀ g ∈ fs, g < s.frames.size := by
  induction h with
  | outside => exact nofun
  | frame hf _ ih =>
    intro g hg
    rcases List.mem_cons.mp hg with rfl | hg
    · exact lt_of_frame? hf
    · exact ih g hg

/-!
## The two parts of a chain
-/

/-- The frame is the activation of a function, or a root. -/
def isBoundary (s : Store) (f : FrameId) : Bool :=
  (s.frame? f).any Frame.isBoundary

/-- The frames of the current function: those up to the first boundary, the boundary included. -/
def own (s : Store) : List FrameId → List FrameId
  | [] => []
  | f :: rest => if s.isBoundary f then [f] else f :: own s rest

/-- The frames beyond the current function. -/
def beyond (s : Store) : List FrameId → List FrameId
  | [] => []
  | f :: rest => if s.isBoundary f then rest else beyond s rest

theorem own_append_beyond (s : Store) (fs : List FrameId) : s.own fs ++ s.beyond fs = fs := by
  induction fs with
  | nil => rfl
  | cons f rest ih =>
    unfold own beyond
    cases s.isBoundary f with
    | true => rfl
    | false => exact congrArg (f :: ·) ih

/-- The frame where the walk to the boundary ends is the last of the function. -/
theorem find?_isBoundary_of_beyond {around : FrameId} {rest : List FrameId}
    (h : s.Outward start fs) (hbeyond : s.beyond fs = around :: rest) :
    ∃ b fr, fs.find? s.isBoundary = some b ∧ s.frame? b = some fr ∧ fr.outer = some around ∧
      s.Outward (some around) (around :: rest) := by
  induction h with
  | outside => cases hbeyond
  | @frame f fr fs hf h ih =>
    unfold beyond at hbeyond
    cases hboundary : s.isBoundary f with
    | true =>
      rw [hboundary, if_pos rfl] at hbeyond
      subst hbeyond
      generalize houter : fr.outer = outer at h
      cases h with
      | frame haround hrest =>
        exact ⟨f, fr, List.find?_cons_of_pos hboundary, hf, houter, .frame haround hrest⟩
    | false =>
      rw [hboundary, if_neg Bool.false_ne_true] at hbeyond
      obtain ⟨b, frb, hb, hrest⟩ := ih hbeyond
      refine ⟨b, frb, ?_, hrest⟩
      rwa [List.find?_cons_of_neg (by rw [hboundary]; exact Bool.false_ne_true)]

/-!
## Bindings
-/

/-- The value that a frame itself binds to a name. -/
def binding (s : Store) (f : FrameId) (name : Text) : Option Value :=
  (s.frame? f).bind fun fr => fr.vars.get? name

/-- The frame itself binds the name. -/
def bindsAt (s : Store) (name : Text) (f : FrameId) : Bool :=
  (s.binding f name).isSome

/-- The first of some frames that binds a name, with the value. -/
def found (s : Store) (fs : List FrameId) (name : Text) : Option (Value × FrameId) :=
  fs.findSome? fun f => (s.binding f name).map (·, f)

/-- The frames that a walk goes through. -/
def reach (s : Store) (shallow : Bool) (fs : List FrameId) : List FrameId :=
  if shallow then s.own fs else fs

theorem Outward.lookupFrom (h : s.Outward start fs) (shallow : Bool) {fuel : Nat}
    (hfuel : fs.length ≤ fuel) :
    s.lookupFrom name shallow fuel start = s.found (s.reach shallow fs) name := by
  induction h generalizing fuel with
  | outside =>
    have hnone : s.found (s.reach shallow []) name = none := by cases shallow <;> rfl
    rw [hnone]
    cases fuel <;> rfl
  | @frame f fr fs hf _ ih =>
    obtain ⟨k, rfl⟩ := Nat.exists_eq_add_one_of_ne_zero (Nat.ne_of_gt (Nat.lt_of_lt_of_le
      (Nat.succ_pos _) hfuel))
    have hbinding : s.binding f name = fr.vars.get? name := by
      rw [binding, hf]
      rfl
    have hboundary : s.isBoundary f = fr.isBoundary := by
      rw [isBoundary, hf]
      rfl
    have hreach : s.reach shallow (f :: fs) =
        f :: if shallow && fr.isBoundary then [] else s.reach shallow fs := by
      cases shallow with
      | false => rfl
      | true =>
        show s.own (f :: fs) = _
        rw [own, hboundary]
        cases fr.isBoundary <;> rfl
    rw [Store.lookupFrom, hf, hreach, found, List.findSome?_cons, hbinding]
    dsimp only
    cases fr.vars.get? name with
    | some v => rfl
    | none =>
      dsimp only [Option.map_none]
      cases shallow && fr.isBoundary with
      | true => rfl
      | false => exact ih (Nat.le_of_succ_le_succ hfuel)

/-- Looking a name up finds the first frame within reach that binds it. -/
theorem Outward.lookup (h : s.Outward start fs) (hs : s.Ordered) (shallow : Bool) :
    s.lookup start name shallow = s.found (s.reach shallow fs) name :=
  h.lookupFrom shallow (h.length_le hs)

theorem Outward.boundary (h : s.Outward start fs) (hs : s.Ordered) :
    s.boundary start = fs.find? s.isBoundary := by
  have hwalk : ∀ fuel, fs.length ≤ fuel → s.boundaryFrom fuel start = fs.find? s.isBoundary := by
    have hlength := h.length_le hs
    clear hlength
    induction h with
    | outside =>
      intro fuel _
      cases fuel <;> rfl
    | @frame f fr fs hf _ ih =>
      intro fuel hfuel
      obtain ⟨k, rfl⟩ := Nat.exists_eq_add_one_of_ne_zero (Nat.ne_of_gt (Nat.lt_of_lt_of_le
        (Nat.succ_pos _) hfuel))
      have hboundary : s.isBoundary f = fr.isBoundary := by
        rw [isBoundary, hf]
        rfl
      rw [boundaryFrom, hf, List.find?_cons, hboundary]
      dsimp only
      cases fr.isBoundary with
      | true => rfl
      | false => exact ih k (Nat.le_of_succ_le_succ hfuel)
  exact hwalk _ (h.length_le hs)

/-!
## Writing a binding
-/

/-- One binding of one frame is written: every other binding, every link, every look-up of another name
and every object are as before. -/
structure Sets (s : Store) (g : FrameId) (name : Text) (v : Value) (s' : Store) : Prop where
  binding : ∀ f m, s'.binding f m = if f = g ∧ m = name then some v else s.binding f m
  links : ∀ f, (s'.frame? f).map (fun fr => (fr.outer, fr.kind)) =
    (s.frame? f).map fun fr => (fr.outer, fr.kind)
  lookups : ∀ start m shallow, m ≠ name → s'.lookup start m shallow = s.lookup start m shallow
  objects : { s' with frames := s.frames } = s

theorem frame?_define (s : Store) (g : FrameId) (name : Text) (v : Value) (f : FrameId) :
    (s.define g name v).frame? f =
      (s.frame? f).map fun fr => if f = g then { fr with vars := fr.vars.insert name v } else fr := by
  show (s.frames.modify g _)[f]? = s.frames[f]?.map _
  rw [Array.getElem?_modify]
  by_cases h : g = f
  · subst h
    rw [if_pos rfl]
    exact congrArg (Option.map · _) (funext fun fr => (if_pos rfl).symm)
  · rw [if_neg h]
    have hkeep : (fun fr : Frame =>
        if f = g then { fr with vars := fr.vars.insert name v } else fr) = id :=
      funext fun fr => if_neg fun e => h e.symm
    rw [hkeep, Option.map_id, id]

theorem lookupFrom_define (s : Store) (g : FrameId) (v : Value) (hm : m ≠ name) (shallow : Bool)
    (fuel : Nat) (start : Option FrameId) :
    (s.define g name v).lookupFrom m shallow fuel start = s.lookupFrom m shallow fuel start := by
  induction fuel generalizing start with
  | zero => rfl
  | succ fuel ih =>
    cases start with
    | none => rfl
    | some f =>
      rw [Store.lookupFrom, Store.lookupFrom, frame?_define]
      cases s.frame? f with
      | none => rfl
      | some fr =>
        by_cases h : f = g
        · simp only [h, Option.map_some, if_true, Table.get?_insert, if_neg hm.symm, ih]
          rfl
        · simp only [h, Option.map_some, if_false, ih]

theorem sets_define (hg : g < s.frames.size) (name : Text) (v : Value) :
    s.Sets g name v (s.define g name v) where
  binding f m := by
    unfold Store.binding
    rw [frame?_define]
    by_cases h : f = g
    · subst h
      obtain ⟨fr, hfr⟩ := exists_frame hg
      rw [hfr]
      simp only [Option.map_some, if_true, Option.bind_some, Table.get?_insert, true_and,
        eq_comm (a := name)]
    · simp only [h, if_false, false_and, Option.map_id_fun', id]
  links f := by
    rw [frame?_define, Option.map_map]
    refine congrArg (Option.map · _) (funext fun fr => ?_)
    by_cases h : f = g
    · simp only [Function.comp, h, if_true]
    · simp only [Function.comp, h, if_false]
  lookups start m shallow hm := lookupFrom_define s g v hm shallow _ start
  objects := rfl

/-!
## What is found after a write
-/

namespace Sets

theorem isBoundary (h : s.Sets g name v s') : s'.isBoundary = s.isBoundary := by
  funext f
  have hlinks := h.links f
  unfold Store.isBoundary
  cases hf : s.frame? f with
  | none =>
    rw [hf] at hlinks
    rw [Option.map_eq_none_iff.mp hlinks]
  | some fr =>
    rw [hf] at hlinks
    obtain ⟨fr', hfr', heq⟩ := Option.map_eq_some_iff.mp hlinks
    rw [hfr']
    show fr'.isBoundary = fr.isBoundary
    unfold Frame.isBoundary
    rw [(Prod.mk.inj heq).2]

theorem own (h : s.Sets g name v s') (fs : List FrameId) : s'.own fs = s.own fs := by
  induction fs with
  | nil => rfl
  | cons f rest ih => rw [Store.own, Store.own, h.isBoundary, ih]

theorem reach (h : s.Sets g name v s') (shallow : Bool) (fs : List FrameId) :
    s'.reach shallow fs = s.reach shallow fs := by
  unfold Store.reach
  rw [h.own]

theorem chain (h : s.Sets g name v s') (hchain : s.Outward start fs) : s'.Outward start fs := by
  induction hchain with
  | outside => exact .outside
  | @frame f fr fs hf _ ih =>
    have hlinks := h.links f
    rw [hf] at hlinks
    obtain ⟨fr', hfr', heq⟩ := Option.map_eq_some_iff.mp hlinks
    refine .frame hfr' ?_
    rw [(Prod.mk.inj heq).1]
    exact ih

theorem ordered (h : s.Sets g name v s') (hs : s.Ordered) : s'.Ordered := by
  intro f fr' hfr' o ho
  have hlinks := h.links f
  rw [hfr'] at hlinks
  obtain ⟨fr, hfr, heq⟩ := Option.map_eq_some_iff.mp hlinks.symm
  exact hs f fr hfr o ((Prod.mk.inj heq).1.trans ho)

/-- Frames other than the written one say what they said. -/
theorem found_others (h : s.Sets g name v s') (hg : g ∉ fs) : s'.found fs name = s.found fs name := by
  induction fs with
  | nil => rfl
  | cons f rest ih =>
    obtain ⟨hne, hrest⟩ := not_or.mp (mt List.mem_cons.mpr hg)
    have hbinding : s'.binding f name = s.binding f name := by
      rw [h.binding, if_neg fun e => hne e.1.symm]
    unfold found at ih ⊢
    rw [List.findSome?_cons, List.findSome?_cons, hbinding, ih hrest]

/-- Behind frames that do not bind the name, the written frame is found. -/
theorem found_written (h : s.Sets g name v s') {front rest : List FrameId}
    (hfront : ∀ f ∈ front, s.binding f name = none) (hg : g ∉ front) :
    s'.found (front ++ g :: rest) name = some (v, g) := by
  induction front with
  | nil =>
    unfold found
    rw [List.nil_append, List.findSome?_cons, h.binding, if_pos ⟨rfl, rfl⟩]
    rfl
  | cons f front ih =>
    obtain ⟨hne, hrest⟩ := not_or.mp (mt List.mem_cons.mpr hg)
    have hbinding : s'.binding f name = none := by
      rw [h.binding, if_neg fun e => hne e.1.symm, hfront f List.mem_cons_self]
    have hlater := ih (fun f' hf' => hfront f' (List.mem_cons_of_mem f hf')) hrest
    unfold found at hlater ⊢
    rw [List.cons_append, List.findSome?_cons, hbinding]
    exact hlater

end Sets

theorem found_none_iff : s.found fs name = none ↔ ∀ f ∈ fs, s.binding f name = none := by
  unfold found
  rw [List.findSome?_eq_none_iff]
  exact forall₂_congr fun f _ => Option.map_eq_none_iff

/-- What the first frames say is what all say, unless they say nothing. -/
theorem found_append (s : Store) (front rest : List FrameId) (name : Text) :
    s.found (front ++ rest) name = (s.found front name).or (s.found rest name) :=
  List.findSome?_append

/-!
## The frame that an assignment writes
-/

/-- The innermost of the frames that binds the name, or another one if none does. -/
def holder (s : Store) (fs : List FrameId) (name : Text) (other : FrameId) : FrameId :=
  (fs.find? (s.bindsAt name)).getD other

/-- No frame further in binds the name. -/
theorem holder_split (s : Store) (f : FrameId) (rest : List FrameId) (name : Text) :
    ∃ front behind, f :: rest = front ++ s.holder (f :: rest) name f :: behind ∧
      ∀ h ∈ front, s.binding h name = none := by
  unfold holder
  cases hfind : (f :: rest).find? (s.bindsAt name) with
  | none => exact ⟨[], rest, rfl, nofun⟩
  | some g =>
    obtain ⟨-, front, behind, hsplit, hnone⟩ := List.find?_eq_some_iff_append.mp hfind
    refine ⟨front, behind, hsplit, fun h hh => ?_⟩
    have hunbound := hnone h hh
    rw [Bool.not_eq_true', bindsAt, Option.isSome_eq_false_iff, Option.isNone_iff_eq_none]
      at hunbound
    exact hunbound

/-- What a walk gives is what the first binding frame holds. -/
theorem match_found {α : Type} (write : FrameId → α) (fs : List FrameId) (name : Text)
    (other : FrameId) :
    (match s.found fs name with
      | some (_, owner) => write owner
      | none => write other) = write (s.holder fs name other) := by
  induction fs with
  | nil => rfl
  | cons f rest ih =>
    unfold found holder at ih ⊢
    rw [List.findSome?_cons, List.find?_cons, bindsAt]
    cases s.binding f name with
    | some v => rfl
    | none => exact ih

theorem Outward.setNearest_eq (h : s.Outward (some f) fs) (hs : s.Ordered) (name : Text) (v : Value) :
    s.setNearest f name v = s.define (s.holder (s.own fs) name f) name v := by
  unfold setNearest
  rw [h.lookup hs]
  exact match_found (s.define · name v) (s.own fs) name f

theorem Outward.setOuter_eq {around : FrameId} {rest : List FrameId} (h : s.Outward (some f) fs)
    (hs : s.Ordered) (hbeyond : s.beyond fs = around :: rest) (name : Text) (v : Value) :
    s.setOuter f name v = s.define (s.holder (s.beyond fs) name around) name v := by
  obtain ⟨b, fr, hb, hfr, houter, haround⟩ := find?_isBoundary_of_beyond h hbeyond
  unfold setOuter
  rw [h.boundary hs, hb]
  dsimp only
  rw [hfr, Option.bind_some, houter]
  dsimp only
  rw [haround.lookup hs, hbeyond]
  exact match_found (s.define · name v) (around :: rest) name around

/-- The first frame of a chain is one of the function's. -/
theorem Outward.own_cons (h : s.Outward (some f) fs) : ∃ rest, s.own fs = f :: rest := by
  cases h with
  | frame hf _ =>
    unfold own
    split
    · exact ⟨[], rfl⟩
    · exact ⟨_, rfl⟩

/-- A name that a frame of the part gets is found from there on, whatever lies behind the part. -/
theorem Sets.found_holder {rest : List FrameId} (h : s.Sets (s.holder (f :: rest) name f) name v s')
    (hpairwise : (f :: rest).Pairwise fun a b => b < a) (tail : List FrameId) :
    s'.found (f :: rest ++ tail) name = some (v, s.holder (f :: rest) name f) := by
  obtain ⟨front, behind, hsplit, hfront⟩ := s.holder_split f rest name
  generalize s.holder (f :: rest) name f = owner at h hsplit ⊢
  rw [hsplit] at hpairwise ⊢
  have hnew : owner ∉ front := fun hmem => Nat.lt_irrefl owner
    ((List.pairwise_append.mp hpairwise).2.2 owner hmem owner List.mem_cons_self)
  rw [List.append_assoc, List.cons_append]
  exact h.found_written hfront hnew

theorem holder_mem (s : Store) (f : FrameId) (rest : List FrameId) (name : Text) :
    s.holder (f :: rest) name f ∈ f :: rest := by
  obtain ⟨front, behind, hsplit, -⟩ := s.holder_split f rest name
  have hmem : s.holder (f :: rest) name f ∈ front ++ s.holder (f :: rest) name f :: behind :=
    List.mem_append_right front List.mem_cons_self
  rwa [← hsplit] at hmem

/-- An assignment inside a function writes one binding: that of the innermost frame of the function
that binds the name, or one of the current frame; then the name leads there. -/
theorem Outward.setNearest_sets (h : s.Outward (some f) fs) (hs : s.Ordered) (name : Text) (v : Value) :
    s.Sets (s.holder (s.own fs) name f) name v (s.setNearest f name v) ∧
      ∀ shallow, (s.setNearest f name v).lookup (some f) name shallow =
        some (v, s.holder (s.own fs) name f) := by
  obtain ⟨rest, hown⟩ := h.own_cons
  have hsplit := s.own_append_beyond fs
  have hpairwise := (h.descends hs).2
  rw [← hsplit, List.pairwise_append, hown] at hpairwise
  have hmem : s.holder (s.own fs) name f ∈ fs := by
    have hinside : s.holder (s.own fs) name f ∈ s.own fs := by
      rw [hown]
      exact s.holder_mem f rest name
    have hmem := List.mem_append_left (s.beyond fs) hinside
    rwa [hsplit] at hmem
  have hsets : s.Sets (s.holder (s.own fs) name f) name v (s.setNearest f name v) := by
    rw [h.setNearest_eq hs]
    exact sets_define (h.frame_lt _ hmem) name v
  refine ⟨hsets, fun shallow => ?_⟩
  rw [(hsets.chain h).lookup (hsets.ordered hs), hsets.reach]
  rw [hown] at hsets ⊢
  cases shallow with
  | true =>
    have hfound := hsets.found_holder hpairwise.1 []
    rw [List.append_nil, ← hown] at hfound
    rw [← hown]
    exact hfound
  | false =>
    have hfound := hsets.found_holder hpairwise.1 (s.beyond fs)
    rw [← hown, hsplit] at hfound
    rw [← hown]
    exact hfound

/-- An assignment to the outside of a function writes one binding: that of the innermost frame beyond
the function that binds the name, or one of the frame around the function. The name leads there from
inside unless the function binds it. -/
theorem Outward.setOuter_sets {around : FrameId} {rest : List FrameId} (h : s.Outward (some f) fs)
    (hs : s.Ordered) (hbeyond : s.beyond fs = around :: rest) (name : Text) (v : Value) :
    s.holder (s.beyond fs) name around ∉ s.own fs ∧
      s.Sets (s.holder (s.beyond fs) name around) name v (s.setOuter f name v) ∧
      ((∀ g ∈ s.own fs, s.binding g name = none) →
        (s.setOuter f name v).lookup (some f) name false =
          some (v, s.holder (s.beyond fs) name around)) ∧
      ((∃ g ∈ s.own fs, s.binding g name ≠ none) →
        (s.setOuter f name v).lookup (some f) name false = s.lookup (some f) name false) ∧
      (s.setOuter f name v).lookup (some f) name true = s.lookup (some f) name true := by
  have hsplit := s.own_append_beyond fs
  have hpairwise := (h.descends hs).2
  rw [← hsplit, List.pairwise_append, hbeyond] at hpairwise
  have hmem : s.holder (s.beyond fs) name around ∈ s.beyond fs := by
    rw [hbeyond]
    exact s.holder_mem around rest name
  have hout : s.holder (s.beyond fs) name around ∉ s.own fs := fun hown =>
    Nat.lt_irrefl _ (hpairwise.2.2 _ hown _ (hbeyond ▸ hmem))
  have hsets : s.Sets (s.holder (s.beyond fs) name around) name v (s.setOuter f name v) := by
    rw [h.setOuter_eq hs hbeyond]
    have hmem := List.mem_append_right (s.own fs) hmem
    rw [hsplit] at hmem
    exact sets_define (h.frame_lt _ hmem) name v
  have hlookup (shallow : Bool) : (s.setOuter f name v).lookup (some f) name shallow =
      (s.setOuter f name v).found (s.reach shallow fs) name := by
    rw [(hsets.chain h).lookup (hsets.ordered hs), hsets.reach]
  have hkept := hsets.found_others hout
  have hdeep : (s.setOuter f name v).lookup (some f) name false =
      (s.found (s.own fs) name).or
        (some (v, s.holder (s.beyond fs) name around)) := by
    have hfound : (s.setOuter f name v).found (s.beyond fs) name =
        some (v, s.holder (s.beyond fs) name around) := by
      rw [hbeyond] at hsets ⊢
      have hhere := hsets.found_holder hpairwise.2.1 []
      rwa [List.append_nil] at hhere
    rw [hlookup, show s.reach false fs = s.own fs ++ s.beyond fs from hsplit.symm, found_append, hkept,
      hfound]
  refine ⟨hout, hsets, fun hnone => ?_, fun ⟨g, hg, hbound⟩ => ?_, ?_⟩
  · rw [hdeep, found_none_iff.mpr hnone, Option.none_or]
  · rw [hdeep, h.lookup hs, show s.reach false fs = s.own fs ++ s.beyond fs from hsplit.symm,
      found_append]
    cases hfound : s.found (s.own fs) name with
    | none => exact absurd (found_none_iff.mp hfound g hg) hbound
    | some u => rfl
  · rw [hlookup, h.lookup hs]
    exact hkept

/-- Each assignment writes one binding, the right one, on the chain of frames from the current one. -/
theorem scoped_assignment (hs : s.Ordered) (hf : f < s.frames.size) (name : Text) (v : Value) :
    ∃ fs, s.Outward (some f) fs ∧
      (∃ owner, owner = s.holder (s.own fs) name f ∧
        s.Sets owner name v (s.setNearest f name v) ∧
        ∀ shallow, (s.setNearest f name v).lookup (some f) name shallow = some (v, owner)) ∧
      ∀ around rest, s.beyond fs = around :: rest →
        ∃ owner, owner = s.holder (s.beyond fs) name around ∧ owner ∉ s.own fs ∧
          s.Sets owner name v (s.setOuter f name v) ∧
          ((∀ g ∈ s.own fs, s.binding g name = none) →
            (s.setOuter f name v).lookup (some f) name false = some (v, owner)) ∧
          ((∃ g ∈ s.own fs, s.binding g name ≠ none) →
            (s.setOuter f name v).lookup (some f) name false = s.lookup (some f) name false) ∧
          (s.setOuter f name v).lookup (some f) name true = s.lookup (some f) name true := by
  obtain ⟨fs, hchain⟩ := hs.chain hf
  exact ⟨fs, hchain, ⟨_, rfl, hchain.setNearest_sets hs name v⟩,
    fun around rest hbeyond => ⟨_, rfl, hchain.setOuter_sets hs hbeyond name v⟩⟩

/-- A scope inside a function that was built in a scope of the program; the scope shadows a name. -/
def shadowed : Store :=
  { empty with
    frames := #[⟨Table.ofList [("x", .boolean true)], none, .boundary "<main>" none none Text.empty⟩,
      ⟨Table.ofList [("x", .boolean false)], some 0, .block⟩,
      ⟨Table.ofList [("y", .null)], some 1, .boundary "f" none (some 0) Text.empty⟩,
      ⟨Table.empty, some 2, .block⟩] }

theorem ordered_shadowed : shadowed.Ordered := by
  intro f fr hf g hg
  have hlinks : ∀ i : Fin 4, ∀ g ∈ shadowed.frames[i].outer, g < i.val := by decide
  obtain ⟨hlt, rfl⟩ := Array.getElem?_eq_some_iff.mp hf
  exact hlinks ⟨f, hlt⟩ g hg

/-- The current function binds no `x`, so the assignments write the current frame and the scope. -/
theorem scoped_assignment_shadowed :
    shadowed.holder [3, 2] "x" 3 = 3 ∧ shadowed.holder [1, 0] "x" 1 = 1 ∧
      ∃ fs, shadowed.Outward (some 3) fs ∧
        (∃ owner, owner = shadowed.holder (shadowed.own fs) "x" 3 ∧
          shadowed.Sets owner "x" .null (shadowed.setNearest 3 "x" .null) ∧
          ∀ shallow, (shadowed.setNearest 3 "x" .null).lookup (some 3) "x" shallow =
            some (.null, owner)) ∧
        ∀ around rest, shadowed.beyond fs = around :: rest →
          ∃ owner, owner = shadowed.holder (shadowed.beyond fs) "x" around ∧
            owner ∉ shadowed.own fs ∧ shadowed.Sets owner "x" .null (shadowed.setOuter 3 "x" .null) ∧
            ((∀ g ∈ shadowed.own fs, shadowed.binding g "x" = none) →
              (shadowed.setOuter 3 "x" .null).lookup (some 3) "x" false = some (.null, owner)) ∧
            ((∃ g ∈ shadowed.own fs, shadowed.binding g "x" ≠ none) →
              (shadowed.setOuter 3 "x" .null).lookup (some 3) "x" false =
                shadowed.lookup (some 3) "x" false) ∧
            (shadowed.setOuter 3 "x" .null).lookup (some 3) "x" true =
              shadowed.lookup (some 3) "x" true :=
  ⟨by decide, by decide, scoped_assignment ordered_shadowed (by decide) "x" .null⟩

end Store
end ScriptEngine
