import ScriptEngine.Proofs.Plans.Writing

/-!
# Nodes of instructions

The debug entries of a fragment form a family of ranges of which any two lie apart or one strictly inside
of the other, the inner ones in front. The first entry around an instruction is then the innermost, and
names the node that the instruction is put down for when the plan is written out.
-/

namespace ScriptEngine

namespace DebugEntry

/-- The node that the entry is about. -/
def label (e : DebugEntry) : Plan.Label :=
  ⟨e.kind, e.span⟩

/-- The place of the first instruction, where no word wraps around. -/
def first (e : DebugEntry) : Int :=
  e.stop - e.length

/-- The instruction at a place lies in the range. -/
def holds (i : Int) (e : DebugEntry) : Bool :=
  e.first ≤ i && i < e.stop

theorem holds_iff {i : Int} {e : DebugEntry} : e.holds i = true ↔ e.first ≤ i ∧ i < e.stop := by
  simp [holds]

/-- The range lies in front of the other or strictly inside of it. -/
def Precedes (a b : DebugEntry) : Prop :=
  a.stop ≤ b.first ∨ b.first ≤ a.first ∧ a.stop ≤ b.stop ∧ a.length < b.length

theorem first_shift (e : DebugEntry) (n : Nat) : (e.shift n).first = e.first + n := by
  show e.stop + n - e.length = e.stop - e.length + n
  omega

theorem holds_shift (e : DebugEntry) (n i : Nat) :
    (e.shift n).holds (n + i : Nat) = e.holds i := by
  have hstop : (e.shift n).stop = e.stop + n := rfl
  rw [Bool.eq_iff_iff, holds_iff, holds_iff, first_shift, hstop]
  omega

theorem Precedes.shift {a b : DebugEntry} (h : a.Precedes b) (n : Nat) : (a.shift n).Precedes (b.shift n) := by
  have ha : (a.shift n).stop = a.stop + n := rfl
  have hb : (b.shift n).stop = b.stop + n := rfl
  have hlength : (a.shift n).length = a.length ∧ (b.shift n).length = b.length := ⟨rfl, rfl⟩
  unfold Precedes at *
  rw [first_shift, first_shift, ha, hb, hlength.1, hlength.2]
  omega

end DebugEntry

namespace DebugTable

/-- Where inner entries come first, the first around an instruction is the shortest. -/
theorem foldl_better_some {t : DebugTable} {e : DebugEntry} {i : Int} (he : e.holds i = true)
    (hbefore : ∀ b ∈ t, e.Precedes b) (hstart : ∀ b ∈ t, b.start = b.first) :
    t.foldl (better i) (some e) = some e := by
  induction t with
  | nil => rfl
  | cons b rest ih =>
    obtain ⟨hb, hrest⟩ := List.forall_mem_cons.mp hbefore
    obtain ⟨hsb, hsrest⟩ := List.forall_mem_cons.mp hstart
    have hkeep : better i (some e) b = some e := by
      unfold better
      split
      · next hcovers =>
        have hholds : b.holds i = true := by
          rw [← hcovers, DebugEntry.covers, hsb, DebugEntry.holds]
        rw [DebugEntry.holds_iff] at he hholds
        have hlonger : ¬ b.length < e.length := by
          rcases hb with hb | hb
          · omega
          · omega
        exact if_neg hlonger
      · rfl
    rw [List.foldl_cons, hkeep, ih hrest hsrest]

theorem lookup_eq_find {t : DebugTable} (hnested : t.Pairwise DebugEntry.Precedes)
    (hstart : ∀ e ∈ t, e.start = e.first) (i : Int) : t.lookup i = t.find? (DebugEntry.holds i) := by
  unfold lookup
  induction t with
  | nil => rfl
  | cons e rest ih =>
    obtain ⟨hbefore, hnested⟩ := List.pairwise_cons.mp hnested
    obtain ⟨hs, hsrest⟩ := List.forall_mem_cons.mp hstart
    have hcovers : e.covers i = e.holds i := by
      rw [DebugEntry.covers, hs, DebugEntry.holds]
    rw [List.foldl_cons, better, hcovers]
    cases he : e.holds i with
    | true =>
      rw [if_pos rfl, List.find?_cons_of_pos he]
      exact foldl_better_some he hbefore hsrest
    | false =>
      rw [if_neg Bool.false_ne_true, List.find?_cons_of_neg (by rw [he]; decide)]
      exact ih hnested hsrest

end DebugTable

namespace Fragment

open Plan (Label)

/-- The debug entries of the fragment lie apart or inside one another, inner ones in front, and the
innermost of them around an instruction has the label of that instruction. -/
structure Named (f : Fragment) (labels : List (Option Label)) : Prop where
  length : labels.length = f.length
  within : ∀ e ∈ f.debug, 0 ≤ e.first ∧ 0 < e.length ∧ e.stop ≤ f.length
  nested : f.debug.Pairwise DebugEntry.Precedes
  names : ∀ (i : Nat) label, labels[i]? = some label →
    (f.debug.find? (DebugEntry.holds i)).map DebugEntry.label = label

namespace Named

variable {f g : Fragment} {labels labels' : List (Option Label)}

theorem of_debug_nil (hdebug : f.debug = []) (hlength : labels.length = f.length)
    (hnone : ∀ label ∈ labels, label = none) : f.Named labels where
  length := hlength
  within e he := by
    rw [hdebug] at he
    cases he
  nested := hdebug ▸ List.Pairwise.nil
  names i label hi := by
    rw [hdebug, hnone label (List.mem_of_getElem? hi)]
    rfl

theorem ofCode (code : List Instruction) : (Fragment.ofCode code).Named (code.map fun _ => none) := by
  apply of_debug_nil rfl (List.length_map _)
  intro label hlabel
  obtain ⟨_, -, rfl⟩ := List.mem_map.mp hlabel
  rfl

/-- No entry holds a place outside of the fragment. -/
theorem find_outside (h : f.Named labels) {i : Int} (hi : i < 0 ∨ f.length ≤ i) :
    f.debug.find? (DebugEntry.holds i) = none := by
  apply List.find?_eq_none.mpr
  intro e he
  have hwithin := h.within e he
  rw [DebugEntry.holds_iff]
  omega

theorem append (hf : f.Named labels) (hg : g.Named labels') : (f ++ g).Named (labels ++ labels') where
  length := by rw [List.length_append, hf.length, hg.length, length_append]
  within e he := by
    rw [length_append]
    rcases List.mem_append.mp he with he | he
    · have := hf.within e he
      omega
    · obtain ⟨e', he', rfl⟩ := List.mem_map.mp he
      have hwithin := hg.within e' he'
      have hstop : (e'.shift f.length).stop = e'.stop + f.length := rfl
      have hlength : (e'.shift f.length).length = e'.length := rfl
      rw [DebugEntry.first_shift, hstop, hlength]
      omega
  nested := by
    rw [debug_append, List.pairwise_append]
    refine ⟨hf.nested, ?_, ?_⟩
    · rw [List.pairwise_map]
      exact hg.nested.imp fun h => h.shift f.length
    · intro a ha b hb
      obtain ⟨b', hb', rfl⟩ := List.mem_map.mp hb
      have hwithin := hf.within a ha
      have hwithin' := hg.within b' hb'
      left
      rw [DebugEntry.first_shift]
      omega
  names i label hi := by
    rw [debug_append, List.find?_append, List.find?_map]
    by_cases hlt : i < f.length
    · rw [List.getElem?_append_left (hf.length ▸ hlt)] at hi
      have hnone : g.debug.find? (DebugEntry.holds i ∘ (·.shift f.length)) = none := by
        apply List.find?_eq_none.mpr
        intro e he
        have hwithin := hg.within e he
        show ¬ (e.shift f.length).holds i = true
        rw [DebugEntry.holds_iff, DebugEntry.first_shift]
        omega
      rw [hnone, Option.map_none, Option.or_none]
      exact hf.names i label hi
    · have hle : f.length ≤ i := Nat.le_of_not_lt hlt
      rw [List.getElem?_append_right (hf.length.symm ▸ hle), hf.length] at hi
      have hshift : (DebugEntry.holds i ∘ (·.shift f.length) : DebugEntry → Bool) =
          DebugEntry.holds (i - f.length : Nat) := by
        funext e
        rw [Function.comp_apply, ← DebugEntry.holds_shift e f.length, Nat.add_sub_cancel' hle]
      rw [hf.find_outside (Or.inr (by omega)), Option.none_or, hshift, Option.map_map]
      exact hg.names _ label hi

/-- An entry for the whole fragment lies around all others if an instruction is in none of them. -/
theorem mark (h : f.Named labels) (hown : none ∈ labels) (kind : String) (span : Span) :
    (f.mark kind span).Named (labels.map (·.or (some ⟨kind, span⟩))) := by
  have hne : f.code ≠ [] := by
    intro hnil
    have hlength := h.length
    rw [show f.length = 0 from congrArg List.length hnil] at hlength
    rw [List.eq_nil_of_length_eq_zero hlength] at hown
    cases hown
  have hdebug := mark_debug hne kind span
  have hpos : 0 < f.length := List.length_pos_of_ne_nil hne
  constructor
  · rw [List.length_map, length_mark, h.length]
  · intro e he
    rw [hdebug] at he
    rw [length_mark]
    rcases List.mem_append.mp he with he | he
    · exact h.within e he
    · rw [List.mem_singleton.mp he]
      refine ⟨?_, ?_, ?_⟩
      · show (0 : Int) ≤ f.length - f.length
        omega
      · show (0 : Int) < f.length
        omega
      · exact Int.le_refl _
  · rw [hdebug, List.pairwise_append]
    refine ⟨h.nested, List.pairwise_singleton _ _, ?_⟩
    intro a ha b hb
    rw [List.mem_singleton.mp hb]
    have hwithin := h.within a ha
    -- the instruction that no entry holds shows that this one is shorter
    obtain ⟨i, hi⟩ := List.mem_iff_getElem?.mp hown
    have hnone := h.names i none hi
    rw [Option.map_eq_none_iff, List.find?_eq_none] at hnone
    have hlt := (List.getElem?_eq_some_iff.mp hi).1
    rw [h.length] at hlt
    have hout := hnone a ha
    rw [DebugEntry.holds_iff] at hout
    unfold DebugEntry.first at hout hwithin
    right
    refine ⟨?_, hwithin.2.2, ?_⟩
    · show (f.length : Int) - f.length ≤ a.stop - a.length
      omega
    · show a.length < (f.length : Int)
      omega
  · intro i label hi
    rw [List.getElem?_map, Option.map_eq_some_iff] at hi
    obtain ⟨label, hi, rfl⟩ := hi
    have hnames := h.names i label hi
    have hlt := (List.getElem?_eq_some_iff.mp hi).1
    rw [h.length] at hlt
    have hholds : DebugEntry.holds i ⟨f.length, f.length, span, kind⟩ = true := by
      rw [DebugEntry.holds_iff]
      constructor
      · show (f.length : Int) - f.length ≤ i
        omega
      · show (i : Int) < f.length
        omega
    rw [hdebug, List.find?_append, List.find?_singleton, if_pos hholds, ← hnames]
    cases f.debug.find? (DebugEntry.holds i) <;> rfl

theorem resolve (h : f.Named labels) (leave again : Nat) : (f.resolve leave again).Named labels where
  length := by rw [h.length, length_resolve]
  within e he := by
    rw [length_resolve]
    exact h.within e he
  nested := h.nested
  names := h.names

theorem emit (h : f.Named labels) (code : List Instruction) :
    (f.emit code).Named (labels ++ code.map fun _ => none) := by
  rw [emit_eq]
  exact h.append (ofCode code)

end Named
end Fragment

namespace Plan

open Fragment (Named)

/-!
# Labels of plans
-/

/-- The nodes of the instructions of a plan, where those that belong to no node in it have none. -/
def labels (around : Option Around) (k : Nat) (a : Plan) : List (Option Label) :=
  (a.write around none k).map Prod.snd

/-- The node around a plan is that of the instructions without a node in it. -/
theorem map_write (a : Plan) (around : Option Around) (label : Option Label) (k : Nat) :
    (a.write around label k).map Prod.snd = (a.labels around k).map (·.or label) := by
  unfold labels
  induction a generalizing around label k with
  | ins code => simp [write, Function.comp_def]
  | seq a b iha ihb =>
    simp only [write, List.map_append]
    rw [iha around label, ihb around label]
  | node kind span a ih =>
    simp only [write]
    rw [ih around (some ⟨kind, span⟩)]
    simp only [List.map_map]
    apply List.map_congr_left
    intro written _
    show written.2.or (some ⟨kind, span⟩) = (written.2.or (some ⟨kind, span⟩)).or label
    rw [Option.or_assoc]
    rfl
  | skip op a ih =>
    simp only [write, List.map_cons]
    rw [ih around label]
    rfl
  | choose yes no ihyes ihno =>
    simp only [write, List.map_append, List.map_cons]
    rw [ihyes around label, ihno around label]
    rfl
  | scope a ih =>
    simp only [write, List.map_append, List.map_cons, List.map_nil]
    rw [ih _ label]
    rfl
  | loop init tested cond body step ihinit ihcond ihbody ihstep =>
    simp only [write, List.map_append, List.map_cons, List.map_nil]
    rw [ihinit _ label, ihbody _ label, ihstep _ label]
    cases tested with
    | false => rfl
    | true =>
      simp only [if_true, List.map_append, List.map_cons, List.map_nil]
      rw [ihcond _ label]
      rfl
  | func a ih =>
    simp only [write, List.map_cons]
    rw [ih none label]
    rfl
  | exit again => cases around <;> simp [write]

theorem labels_node (kind : String) (span : Span) (a : Plan) (around : Option Around) (k : Nat) :
    (node kind span a).labels around k = (a.labels around k).map (·.or (some ⟨kind, span⟩)) :=
  map_write a around _ k

/-- An instruction of a plan that owns one has no node in it. -/
theorem none_mem_labels (a : Plan) (around : Option Around) (k : Nat) (h : a.owns = true) :
    none ∈ a.labels around k := by
  induction a generalizing around k with
  | ins code =>
    cases code with
    | nil => cases h
    | cons => exact List.mem_cons_self
  | seq a b iha ihb =>
    unfold labels
    rw [write, List.map_append]
    rcases Bool.or_eq_true_iff.mp h with h | h
    · exact List.mem_append_left _ (iha around k h)
    · exact List.mem_append_right _ (ihb around _ h)
  | node kind span a ih => cases h
  | skip | choose | scope | func => exact List.mem_cons_self
  | loop =>
    unfold labels
    rw [write]
    simp
  | exit again =>
    unfold labels
    cases around with
    | none => exact List.mem_cons_self
    | some l => simp [write]

/-- A plan whose nodes all own an instruction is built with entries that name the nodes of its
instructions. -/
theorem named_build (a : Plan) (around : Option Around) (k : Nat) (h : a.proper = true) :
    (a.build (around.map Around.scopes)).Named (a.labels around k) := by
  induction a generalizing around k with
  | ins code =>
    have hlabels : (ins code).labels around k = code.map fun _ => none := by
      simp [labels, write, Function.comp_def]
    rw [hlabels]
    exact Named.ofCode code
  | seq a b iha ihb =>
    obtain ⟨ha, hb⟩ := Bool.and_eq_true_iff.mp h
    unfold labels
    rw [write, List.map_append]
    exact (iha around k ha).append (ihb around _ hb)
  | node kind span a ih =>
    obtain ⟨howns, ha⟩ := Bool.and_eq_true_iff.mp h
    rw [labels_node]
    exact (ih around k ha).mark (none_mem_labels a around k howns) kind span
  | skip op a ih =>
    exact (Named.ofCode _).append (ih around (k + 1) h)
  | choose yes no ihyes ihno =>
    obtain ⟨hyes, hno⟩ := Bool.and_eq_true_iff.mp h
    have hcode := ((Named.ofCode [.withDistance .jumpIfFalse
      ((yes.build (around.map Around.scopes)).length + 1)]).append (ihyes around (k + 1) hyes)).append
      (Named.ofCode [.withDistance .jump (no.build (around.map Around.scopes)).length])
    have hall := hcode.append (ihno around (k + 1 + yes.width (around.map Around.scopes) + 1) hno)
    unfold labels at hall ⊢
    rw [write, List.map_append]
    rwa [List.append_assoc] at hall
  | scope a ih =>
    have ha := ih (around.map Around.deeper) (k + 1) h
    rw [scopes_deeper] at ha
    unfold labels
    rw [build, write, List.map_append]
    exact ((Named.ofCode [.bare .scopeEnter]).append ha).emit [.bare .scopeExit]
  | loop init tested cond body step ihinit ihcond ihbody ihstep =>
    obtain ⟨hpinit, h⟩ := Bool.and_eq_true_iff.mp h
    obtain ⟨hpcond, h⟩ := Bool.and_eq_true_iff.mp h
    obtain ⟨hpbody, hpstep⟩ := Bool.and_eq_true_iff.mp h
    unfold labels
    rw [build, write, Fragment.loop_eq, ← scopes_deeper]
    generalize around.map Around.deeper = outside
    have htest : ∀ first leave rest, (Fragment.loopTest
        (if tested then some (cond.build (outside.map Around.scopes)) else none) rest).Named
        ((if tested then
          cond.write outside none first ++
            [(leap .jumpIfFalse (first + cond.width (outside.map Around.scopes)) leave, none)]
        else []).map Prod.snd) := by
      intro first leave rest
      cases tested with
      | false => exact Named.ofCode []
      | true =>
        rw [if_pos rfl, if_pos rfl, List.map_append]
        exact (ihcond outside first hpcond).emit _
    have hrounds := fun first round again leave leave' back rest =>
      (htest first leave' rest).append
        (((ihbody (some ⟨leave, again, 0⟩) round hpbody).resolve
          ((body.build (some 0)).length + (step.build (outside.map Around.scopes)).length + 1)
          (body.build (some 0)).length).append
        ((ihstep outside again hpstep).append
          ((Named.ofCode [back]).append (Named.ofCode [.bare .scopeExit, .bare .pushNull]))))
    have hall := fun first round again leave leave' back rest =>
      (Named.ofCode [.bare .scopeEnter]).append
        ((ihinit outside (k + 1) hpinit).append (hrounds first round again leave leave' back rest))
    simp only [List.map_append, List.map_cons, List.map_nil, List.append_assoc, List.cons_append]
    exact hall _ _ _ _ _ _ _
  | func a ih =>
    exact (Named.ofCode _).append (ih none (k + 1) h)
  | exit again =>
    cases around with
    | none => exact Named.ofCode _
    | some l =>
      apply Named.of_debug_nil rfl
      · simp [labels, write, build, Fragment.exit, Fragment.length]
      · intro label hlabel
        have h : ¬l.scopes = 0 ∧ label = none ∨ label = none := by simpa [labels, write] using hlabel
        exact h.elim And.right id

end Plan
end ScriptEngine
