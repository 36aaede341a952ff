import ScriptEngine.Proofs.Machine.Apart
import ScriptEngine.Proofs.Machine.Rounds
import ScriptEngine.Proofs.Native.Iteration
import ScriptEngine.Proofs.Native.Sequences
import ScriptEngine.Proofs.Program.Iterations

/-!
# Steps of loops over a source

The instructions of a loop over a source ask the source for an iterator, bind it in the scope of the loop, and
ask it for a step in front of every round. The iterator and its binding are hidden from all that programs may
come across, so it is as far in front of a round as the steps have brought it.
-/

namespace ScriptEngine

/-- The veil over an iterator, over the copy of it that a frame binds, and over this binding. -/
def Veil.iterator (V : Veil) (f : FrameId) (n : InstanceId) : Veil where
  hidden := ((V.hide (.inst n)).hide (.inst (n + 1))).hidden
  slot := some (f, Compiler.hiddenIter)
  unjoined := by
    rintro _ ⟨⟩ name type htype
    exact Key.join_ne (t := Compiler.hiddenIter) (by decide +kernel) name htype

/-- The iterator and its binding in the frame are hidden. -/
structure Veil.Covers (V : Veil) (f : FrameId) (it : InstanceId) : Prop where
  iterator : V.hidden (.inst it)
  binding : V.slot = some (f, Compiler.hiddenIter)

theorem Veil.Covers.around {V : Veil} {f : FrameId} {it : InstanceId} (h : V.Covers f it) : V.Around f := by
  intro e he
  cases h.binding.symm.trans he
  exact ⟨rfl, Nat.le_refl f⟩

/-!
# The scope of the loop
-/

namespace Store

/-- The frame, which lies in another one, binds an iterator of the list before position `i`, and the iterator is
hidden. -/
structure Iterating (V : Veil) (s : Store) (f : FrameId) (o : Option FrameId) (it : InstanceId) (l : ListId) (i : Nat) :
    Prop where
  iterator : s.var f Compiler.hiddenIter = some (.inst it)
  traverses : s.Traverses it l i
  scope : ∃ fr, s.frame? f = some fr ∧ fr.outer = o ∧ fr.isBoundary = false
  veiled : s.Veiled V

/-- The frame binds the step that found the element. -/
def Offers (s : Store) (f : FrameId) (found : Option Value) : Prop :=
  ∃ k, s.var f Compiler.hiddenStep = some (.list k) ∧ s.Sequence k (Value.answer found).toList

/-- The second store has all that is in the first one, and apart from the iterator all is as it was. -/
structure Leaves (it : InstanceId) (s s' : Store) : Prop where
  le : s.Le s'
  content : ∀ v, s.Has v → v ≠ .inst it → s'.content v = s.content v
  lists : ∀ l < s.lists.size, s'.lists[l]? = s.lists[l]?
  frames : s'.frames.size = s.frames.size

/-- The second value is a copy of the first one, under a name if it is a closure: the same value if that is no
object, else a new object that holds in the second store what the first one held in the first store. -/
structure CopiedAs (s s' : Store) (name : Text) (v e : Value) : Prop where
  same : v.isHandle = false → e = v
  fresh : v.isHandle = true → ¬ s.Has e ∧ s'.content e = (s.content v).named name

section
variable {V : Veil} {s s' : Store} {f g : FrameId} {fr : Frame} {o : Option FrameId} {it : InstanceId} {inst : Instance}
  {l : ListId} {i : Nat} {v w : Value} {name : Text} {found : Option Value}

theorem Intact.leaves (h : s.Intact s') (hlists : ∀ l < s.lists.size, s'.lists[l]? = s.lists[l]?)
    (hframes : s'.frames.size = s.frames.size) : s.Leaves it s' :=
  ⟨h.le, fun v hv _ => h.content v hv, hlists, hframes⟩

theorem Leaves.refl (it : InstanceId) (s : Store) : s.Leaves it s :=
  (Intact.refl s).leaves (fun _ _ => rfl) rfl

theorem Leaves.trans {s'' : Store} (h : s.Leaves it s') (h' : s'.Leaves it s'') : s.Leaves it s'' :=
  ⟨h.le.trans h'.le, fun v hv hne => (h'.content v (hv.mono h.le) hne).trans (h.content v hv hne),
    fun l hl => (h'.lists l (Nat.lt_of_lt_of_le hl h.le.lists)).trans (h.lists l hl), h'.frames.trans h.frames⟩

/-- An element is what a list of that size with these items has there. -/
theorem element?_congr {l' : ListId} (hitems : s'.items l' = s.items l) (hsize : s'.listSize l' = s.listSize l)
    (i : Nat) : s'.element? l' i = s.element? l i := by
  have hget : ∀ (s : Store) (l : ListId), i < s.listSize l → s.listGet l i = (s.items l)[i]?.getD .null := by
    intro s l hi
    unfold Store.listSize at hi
    unfold Store.listGet Store.rowGet Store.items
    dsimp only
    split
    · rfl
    · rw [Array.getElem?_extract]
      split
      · rw [Nat.zero_add]
      · rw [Array.getElem?_eq_none (by omega)]
  unfold Store.element?
  rw [hsize]
  split
  · rename_i hi
    rw [hget s' l' (hsize ▸ hi), hget s l hi, hitems]
  · rfl

theorem Leaves.element? (h : s.Leaves it s') (hl : s.Has (.list l)) (i : Nat) : s'.element? l i = s.element? l i := by
  refine element?_congr (Content.items.inj (h.content (.list l) hl fun heq => by cases heq)) ?_ i
  unfold listSize window
  rw [h.lists l hl]

theorem Spares.element? (h : s.Spares V s') (hl : V.hidden (.list l)) (i : Nat) : s'.element? l i = s.element? l i :=
  element?_congr (Content.items.inj (h.content (.list l) hl)) (h.sizes l hl) i

theorem bindCopy_frames_size (s : Store) (f : FrameId) (name : Text) (v : Value) :
    (s.bindCopy f name v).frames.size = s.frames.size := by
  have hnamed : ∀ (s : Store) (v : Value), (s.nameValue v name).frames = s.frames := fun s v => by
    cases v <;> rfl
  show (Array.modify _ f _).size = _
  rw [Array.size_modify, hnamed, Exec.copy_frames]

theorem var_bindCopy (hs : ∀ w ∈ s.lists, w.row < s.rows.size) (hf : s.frame? f = some fr) (name : Text) (v : Value) :
    (s.bindCopy f name v).var f name = some (s.copy v).1 := by
  rw [var_of_frame (frame?_bindCopy name v hs hf)]
  exact (Table.get?_insert ..).trans (if_pos rfl)

theorem var_bindCopy_ne (hs : ∀ w ∈ s.lists, w.row < s.rows.size) (hf : s.frame? f = some fr) {other : Text}
    (hne : name ≠ other) (v : Value) : (s.bindCopy f name v).var f other = s.var f other := by
  rw [var_of_frame (frame?_bindCopy name v hs hf), var_of_frame hf]
  exact (Table.get?_insert ..).trans (if_neg hne)

/-!
# The iterator is bound
-/

theorem Veiled.newIterator (h : s.Veiled V) (items : Value) :
    (s.newIterator items).Veiled (V.hide (.inst s.instances.size)) := by
  have hhidden : (V.hide (.inst s.instances.size)).hidden (.inst s.instances.size) := Or.inr ⟨rfl, rfl⟩
  have hnew : (s.newInstance TypeInfo.iterator).2.Veiled (V.hide (.inst s.instances.size)) :=
    h.pushHidden (by decide)
  exact (hnew.setHiddenField hhidden _ _).setHiddenField hhidden _ _

theorem size_setField (s : Store) (it : InstanceId) (name : Text) (v : Value) :
    (s.setField it name v).instances.size = s.instances.size :=
  Array.size_modify

theorem Veiled.element? (h : s.Veiled V) (l : ListId) (i : Nat) : ∀ v ∈ s.element? l i, s.Shows V v := by
  intro v hv
  unfold Store.element? at hv
  split at hv
  · cases hv
    exact h.listGet l i
  · cases hv

/-- The store after a step of the iterator that the frame binds, which the frame binds too. -/
def steppedIn (s : Store) (f : FrameId) (it : InstanceId) (i : Nat) (found : Option Value) : Store :=
  (s.stepped it i found).bindCopy f Compiler.hiddenStep (.list s.lists.size)

theorem Veiled.movedOn (h : s.Veiled V) (hit : V.hidden (.inst it)) (i : Nat) (found : Option Value) :
    (s.movedOn it i found).Veiled V ∧ s.Leaves it (s.movedOn it i found) := by
  cases found with
  | none => exact ⟨h, .refl it s⟩
  | some v =>
    refine ⟨h.setHiddenField hit _ _, ⟨Nat.le_refl _, Nat.le_refl _, Nat.le_refl _, ?_, Nat.le_refl _, Nat.le_refl _⟩,
      fun u _ hu => ?_, fun _ _ => rfl, rfl⟩
    · exact Nat.le_of_eq (size_setField ..).symm
    · refine content_congr (fun _ _ => rfl) (fun _ _ => rfl) ?_ (fun _ _ => rfl)
      rintro j rfl
      exact getElem?_modify_ne fun heq => hu (heq ▸ rfl)

/-- A step of the iterator has been made and bound. -/
theorem Iterating.steppedIn (h : s.Iterating V f o it l i) (hcovers : V.Covers f it)
    (hfound : ∀ v ∈ found, s.Shows V v) :
    (s.steppedIn f it i found).Iterating V f o it l (if found.isSome then min (i + 1) (2 ^ 53) else i) ∧
      (s.steppedIn f it i found).Offers f found ∧ s.Leaves it (s.steppedIn f it i found) := by
  obtain ⟨fr, hf, houter, hblock⟩ := h.scope
  obtain ⟨hmoved, hleaves⟩ := h.veiled.movedOn hcovers.iterator i found
  have hanswer : ∀ v ∈ Value.answer found, (s.movedOn it i found).Shows V v := by
    cases found with
    | none => intro v hv; simp [Value.answer] at hv; rcases hv with rfl | rfl <;> exact ⟨trivial, trivial⟩
    | some u =>
      intro v hv
      simp [Value.answer] at hv
      rcases hv with rfl | rfl
      · exact (hfound _ rfl).mono hleaves.le
      · exact ⟨trivial, trivial⟩
  obtain ⟨s₂, hs₂⟩ : ∃ s₂, s₂ = s.stepped it i found := ⟨_, rfl⟩
  have hlists : (s.movedOn it i found).lists = s.lists := by cases found <;> rfl
  have hspares : (s.movedOn it i found).Spares V s₂ := by
    rw [hs₂]
    exact hmoved.newListIn hanswer _
  have hleaves₂ : s.Leaves it s₂ := hleaves.trans (by
    rw [hs₂]
    exact (Intact.newListIn hmoved.windows _ _).leaves (fun _ hl => getElem?_push_old hl) rfl)
  have hf₂ : s₂.frame? f = some fr := by
    rw [hs₂]
    cases found <;> exact hf
  have hstep : s₂.Sequence s.lists.size (Value.answer found).toList := by
    rw [hs₂, ← hlists]
    exact lists_newListIn _ _ _
  have hlist : s₂.Shows V (.list s.lists.size) :=
    ⟨hstep.lt, hmoved.not_hidden (by rw [← hlists]; exact Nat.lt_irrefl _)⟩
  have hcopy := hspares.veiled.copy hlist
  have hwindows := hspares.veiled.windows
  have hne : Compiler.hiddenStep ≠ Compiler.hiddenIter := by decide
  have htraverses : s₂.Traverses it l (if found.isSome then min (i + 1) (2 ^ 53) else i) := by
    rw [hs₂]
    exact h.traverses.stepped
  have hthere : s₂.Has (.inst it) := (hspares.veiled.known _ hcovers.iterator).2
  unfold Store.steppedIn
  rw [← hs₂]
  refine ⟨⟨?_, ?_, ⟨_, frame?_bindCopy _ _ hwindows hf₂, houter, hblock⟩, ?_⟩, ⟨s₂.lists.size, ?_, ?_⟩,
    hleaves₂.trans ⟨bindCopy_le _ _ _ _, fun u hu _ => content_bindCopy hwindows hlist.has hu,
      fun _ hl => getElem?_push_old hl, bindCopy_frames_size _ _ _ _⟩⟩
  · rw [var_bindCopy_ne hwindows hf₂ hne, var_of_frame hf₂, ← var_of_frame hf]
    exact h.iterator
  · exact htraverses.congr (content_bindCopy hwindows hlist.has hthere)
  · refine (hcopy.1.veiled.define (f := f) hcopy.2 fun hslot => hne ?_).veiled
    exact (congrArg Prod.snd (Option.some.inj (hcovers.binding.symm.trans hslot))).symm
  · exact var_bindCopy hwindows hf₂ _ _
  · have hitems : (s₂.items s.lists.size).toList = (Value.answer found).toList := hstep.items
    have hcopied : (s₂.copy (.list s.lists.size)).2.Sequence s₂.lists.size (s₂.items s.lists.size).toList :=
      lists_newListIn _ _ _
    rw [← hitems]
    exact hcopied.of_same rfl rfl

/-!
# An element
-/

/-- A copy of the element is bound in a new scope inside the frame, and nothing else is. -/
theorem bindElement {s₀ : Store} (hleaves : s₀.Leaves it s) (hs : s.Veiled V) (hv : s₀.Has v) (hne : v ≠ .inst it)
    (f : FrameId) (name : Text) :
    ∃ w, ((s.newFrame ⟨Table.empty, some f, .block⟩).2.bindCopy s.frames.size name v).frame? s.frames.size =
        some ⟨Table.empty.insert name w, some f, .block⟩ ∧
      s₀.CopiedAs ((s.newFrame ⟨Table.empty, some f, .block⟩).2.bindCopy s.frames.size name v) name v w := by
  have hopened : (s.newFrame ⟨Table.empty, some f, .block⟩).2.Veiled V := (hs.newFrame .empty).veiled
  have hle : s₀.Le (s.newFrame ⟨Table.empty, some f, .block⟩).2 := hleaves.le.trans (Intact.newFrame s _).le
  obtain ⟨-, -, hnew, hself⟩ := copy_spec (hv.mono hle)
  refine ⟨_, frame?_bindCopy name v hopened.windows (newFrame_frame? s _),
    fun hplain => congrArg Prod.fst (hself hplain), fun hhandle => ⟨fun hold => hnew hhandle (hold.mono hle), ?_⟩⟩
  rw [content_bindCopy_self, (Intact.newFrame s _).content v (hv.mono hleaves.le), hleaves.content v hv hne]

end
end Store
end ScriptEngine

namespace ScriptEngine

/-!
# Calls of methods
-/

/-- From one place the engine comes to another one, and is at none of the positions before. -/
def Machine.Proceeds (m : Machine) (pending : List Pending) (k : Nat) (P : Nat → Prop) (i : Nat) (l : List Value)
    (s : Store) (j : Nat) (l' : List Value) (s' : Store) : Prop :=
  ∀ m₁, m.At i l s m₁ → ∃ m₂, m.At j l' s' m₂ ∧
    State.Nears pending k P ⟨m₁, pending, .running⟩ ⟨m₂, pending, .running⟩

section
variable {m m₁ : Machine} {p : Program} {pending : List Pending} {k i j n : Nat} {P : Nat → Prop} {l l' l'' : List Value}
  {s s' s'' : Store} {method : NativeInfo} {object v : Value} {name : Text}

theorem Machine.Proceeds.trans {i' : Nat} (h : m.Proceeds pending k P i l s j l' s')
    (h' : m.Proceeds pending k P j l' s' i' l'' s'') : m.Proceeds pending k P i l s i' l'' s'' := by
  intro m₁ hm₁
  obtain ⟨m₂, hm₂, hnears⟩ := h m₁ hm₁
  obtain ⟨m₃, hm₃, hnears'⟩ := h' m₂ hm₂
  exact ⟨m₃, hm₃, hnears.trans hnears'⟩

theorem Machine.Passes.proceeds (h : m.Passes i l s j l' s') (hk : m.calls.size = k) (pending : List Pending)
    (hstop : ∀ x, i ≤ x → x < j → ¬ P x) : m.Proceeds pending k P i l s j l' s' :=
  fun _ hm₁ => h.nears hm₁ hk pending hstop

/-- A name has the value that is found for it. -/
theorem Machine.resolve_of_found {f : FrameId} (h : m.world.store.lookup m.frame name false = some (v, f)) :
    m.resolve name = some v := by
  unfold Machine.resolve
  rw [h]

/-- A value without a member of its own gives the native that its type has under the name. -/
theorem Exec.member_native (hown : Exec.ownMember object (.text name) m = .ok none m)
    (hmethod : m.resolve (Key.join name (m.world.store.typeName object)) = some (.native method)) :
    Exec.member object (.text name) m = .ok (.bound method object) m :=
  Exec.member_method hown hmethod

/-- A method that stands on the stack is called. -/
theorem State.asksMethod (hp : m.program = some p) (hi : i < p.size) (hop : m.ops[i]? = some .call)
    (hm₁ : m.At i (.bound method object :: .number (Number.ofNat 0) :: l) s m₁) (pending : List Pending) :
    ∃ m₂, m.At i l s m₂ ∧ State.advance ⟨m₁, pending, .running⟩ =
      .next ⟨m₂, .instruction :: pending, .invoking (.bound method object) []⟩ := by
  obtain ⟨j, hexecute⟩ := State.execute_eq (hm₁.program.trans hp) hm₁.ip_eq hi (hm₁.ops ▸ hop) pending
  have hstep : Exec.step .call (m₁.withJournal j) = _ :=
    Exec.step_call (n := 0) (l := []) (by decide) rfl (hm₁.withJournal j).operands
  rw [hstep] at hexecute
  exact ⟨_, (hm₁.withJournal j).leaving (l := [_, _]), hexecute⟩

/-- A native method answers at once. -/
theorem Machine.proceeds_call (hp : m.program = some p) (hi : i < p.size) (hop : m.ops[i]? = some .call)
    (harity : method.arity = some 1)
    (hdone : ∀ w : World, w.store = s → m.library.behaviour method [object] w = .done (some v) { w with store := s' })
    (hnatives : m.natives.size < nativeLimit) (hk : m.calls.size = k) (hstop : ¬ P i) :
    m.Proceeds pending k P i (.bound method object :: .number (Number.ofNat 0) :: l) s (i + 1) (v :: l) s' := by
  intro m₁ hm₁
  obtain ⟨m₂, hm₂, hnext⟩ := State.asksMethod hp hi hop hm₁ pending
  have hanswered : State.advance ⟨m₂, .instruction :: pending, .invoking (.bound method object) []⟩ =
      .next ⟨m₂.withStore s', .instruction :: pending, .delivering (.ok v)⟩ := by
    have htakes : State.Takes method (Exec.withReceiver (some object) []) := fun arity hsome => by
      rw [harity] at hsome
      cases hsome
      rfl
    show State.startNative m₂ (.instruction :: pending) method (some object) [] = _
    rw [State.startNative_takes htakes]
    exact State.enterNative_done (hm₂.natives ▸ hnatives) (hm₂.library ▸ hdone m₂.world hm₂.store)
  have hm₃ := hm₂.withStore s'
  refine ⟨_, (hm₃.push v).moved (i + 1), (State.Nears.step (hm₁.calls ▸ hk) hm₁.ip_eq hstop hnext).trans
    ((State.Nears.busy (by rintro ⟨⟩) hanswered).trans (State.Nears.busy (by rintro ⟨⟩) ?_))⟩
  generalize m₂.withStore s' = m₃ at hm₃
  show Advance.next ⟨{ m₃ with stack := m₃.stack.push v, ip := m₃.ip + 1 }, pending, .running⟩ = _
  rw [hm₃.ip_eq]
  rfl

/-- Where natives are nested as deep as they may be, the activation fails instead. -/
theorem State.refusesMethod (hp : m.program = some p) (hi : i < p.size) (hop : m.ops[i]? = some .call)
    (harity : method.arity = some 1) (hnatives : nativeLimit ≤ m.natives.size) (hk : m.calls.size = k)
    (hstop : ¬ P i) (hm₁ : m.At i (.bound method object :: .number (Number.ofNat 0) :: l) s m₁) :
    ∃ s', State.Nears pending k P ⟨m₁, pending, .running⟩ s' ∧ s'.Left pending k := by
  obtain ⟨m₂, hm₂, hnext⟩ := State.asksMethod hp hi hop hm₁ pending
  have hrefused : ∃ message, State.advance ⟨m₂, .instruction :: pending, .invoking (.bound method object) []⟩ =
      .next ⟨m₂, .instruction :: pending, .delivering (.error (.raised .callDepth message))⟩ := by
    have htakes : State.Takes method (Exec.withReceiver (some object) []) := fun arity hsome => by
      rw [harity] at hsome
      cases hsome
      rfl
    have hdeep : nativeLimit ≤ m₂.natives.size := hm₂.natives ▸ hnatives
    obtain ⟨message, hfull⟩ := State.enterNative_full (Exec.withReceiver (some object) []) hdeep
    exact ⟨message, (State.startNative_takes htakes).trans hfull⟩
  obtain ⟨message, hrefused⟩ := hrefused
  refine ⟨_, (State.Nears.step (hm₁.calls ▸ hk) hm₁.ip_eq hstop hnext).trans
    ((State.Nears.busy (by rintro ⟨⟩) hrefused).trans (State.Nears.busy (by rintro ⟨⟩) rfl)), rfl, ?_⟩
  intro h
  cases h

/-- A method of an object is looked up. -/
theorem Machine.proceeds_method (hp : m.program = some p) (hi : i + 1 < p.size) (hk : m.calls.size = k)
    (hops : Op.Spelled m.ops i [.push (.text name), .getMember])
    (hown : ∀ m₁ : Machine, m₁.world.store = s → Exec.ownMember object (.text name) m₁ = .ok none m₁)
    (hmethod : (m.withStore s).resolve (Key.join name (s.typeName object)) = some (.native method))
    (hstop : ∀ x, i ≤ x → x < i + 2 → ¬ P x) :
    m.Proceeds pending k P i (object :: l) s (i + 2) (.bound method object :: l) s := by
  obtain ⟨hname, hops⟩ := hops.cons
  obtain ⟨hmember, -⟩ := hops.cons
  refine ((passes_push hp (Nat.lt_of_succ_lt hi) hname).trans (passes_getMember hp hi hmember ?_)).proceeds hk pending hstop
  intro m₁ hstore hresolve
  have hfound := hmethod
  rw [← hresolve, ← hstore] at hfound
  have hsame : m₁.withStore s = m₁ := by
    rw [← hstore]
    rfl
  rw [Exec.member_native (hown m₁ hstore) hfound, hsame]

/-- The value on the stack is bound in the current scope. -/
theorem Machine.passes_bind {f : FrameId} {scope : Scope} (hp : m.program = some p) (hi : i + 4 ≤ p.size)
    (hops : Op.Spelled m.ops i [.push .empty, .push (.text name), .assign scope, .pop])
    (hframe : m.frame = some f) (hscope : scope.Stays s f name) :
    m.Passes i (v :: l) s (i + 4) l (s.bindCopy f name v) := by
  obtain ⟨hmarker, hops⟩ := hops.cons
  obtain ⟨hname, hops⟩ := hops.cons
  obtain ⟨hassign, hops⟩ := hops.cons
  obtain ⟨hpop, -⟩ := hops.cons
  exact (passes_push hp (by omega) hmarker).trans ((passes_push hp (by omega) hname).trans
    ((passes_assign hp (by omega) hassign hframe hscope).trans (passes_pop hp (by omega) hpop)))

/-!
# The loop's own instructions
-/

namespace EachSite

/-- Where the statements of the body begin, with the element bound, or the loop is over. -/
def Turns (site : EachSite) (i : Nat) : Prop :=
  i = site.inside ∨ i = site.stop

/-- Where the body ends: in front of the next step, or at the end of the loop's scope if the loop is left. -/
def Ends (site : EachSite) (i : Nat) : Prop :=
  i = site.again ∨ i = site.leave

/-- Where the source of the loop is evaluated. -/
def Source (site : EachSite) (i : Nat) : Prop :=
  site.start ≤ i ∧ i < site.given

end EachSite

/-- The engine executes a program with the loop in it, its library has iterators, and it has `k` calls in
progress. -/
structure EachSite.Ready (site : EachSite) (p : Program) (k : Nat) (m : Machine) : Prop where
  written : site.Written m.ops
  program : m.program = some p
  size : m.ops.size = p.size
  limit : m.ops.size ≤ Slot.limit
  calls : m.calls.size = k
  iterates : m.library.Iterates

/-- The positions of the loop's own instructions are none of these. -/
def EachSite.Spares (site : EachSite) (P : Nat → Prop) : Prop :=
  ∀ x, site.given ≤ x ∧ x < site.inside ∨ site.again ≤ x ∧ x < site.stop → ¬ P x

/-- Neither where the body begins nor behind the loop are there instructions of the loop that are executed
before. -/
theorem EachSite.Written.spares_turns {site : EachSite} {ops : Array Op} (h : site.Written ops) :
    site.Spares fun i => site.Turns i ∨ site.Source i := by
  have hinside := h.inside
  have hfar : site.given + 28 = site.inside := rfl
  have hstop : site.again + 12 = site.stop := rfl
  rintro i hi ((rfl | rfl) | ⟨-, hlt⟩) <;> omega

/-- At the position the iterator is asked for a step: for the first one, or where one is bound already. -/
def EachSite.Asks (site : EachSite) (s : Store) (f : FrameId) (j : Nat) : Prop :=
  j = site.given + 7 ∨ j = site.again ∧ s.Binds f Compiler.hiddenStep

/-- What stands in a frame is found through a scope inside it that does not bind the name. -/
theorem Store.lookup_block {f g : FrameId} {fr : Frame} {shallow : Bool} (hg : s.frame? g = some fr)
    (hnone : fr.vars.get? name = none) (houter : fr.outer = some f) (hblock : fr.isBoundary = false) (hlt : f < g)
    (hv : s.var f name = some v) : s.lookup (some g) name shallow = some (v, f) := by
  obtain ⟨fr', hf, hv⟩ := Option.bind_eq_some_iff.mp hv
  obtain ⟨n, rfl⟩ := Nat.exists_eq_add_of_lt hlt
  unfold Store.lookup walkFuel Store.lookupFrom
  simp only [hg, hnone, hblock, Bool.and_false, Bool.false_eq_true, if_false, houter]
  unfold Store.lookupFrom
  simp only [hf, hv]

namespace EachSite.Ready

variable {site : EachSite} {f : FrameId} {it : InstanceId} {items : ListId} {found : Option Value}

theorem inside (h : site.Ready p k m) (hi : i < site.stop) : i < p.size :=
  h.size ▸ Nat.lt_of_lt_of_le hi h.written.size

/-- The positions in front of the body. -/
theorem head_lt (h : site.Ready p k m) (hj : j ≤ 28) : site.given + j < site.stop := by
  have hinside := h.written.inside
  unfold EachSite.inside at hinside
  unfold EachSite.stop
  omega

theorem moved {m₁ : Machine} (h : site.Ready p k m) (hat : m.At i l s m₁) : site.Ready p k m₁ :=
  ⟨hat.ops ▸ h.written, hat.program.trans h.program, hat.ops ▸ h.size, hat.ops ▸ h.limit, hat.calls ▸ h.calls,
    hat.library ▸ h.iterates⟩

/-- The method is looked up and called, and its answer bound. -/
theorem opening (h : site.Ready p k m) :
    Op.Spelled m.ops site.given [.push (.text "iter"), .getMember] ∧ Op.Spelled m.ops (site.given + 2) [.call] ∧
      Op.Spelled m.ops (site.given + 3) [.push .empty, .push (.text Compiler.hiddenIter), .assign .inner, .pop] := by
  obtain ⟨hopening, -⟩ := h.written.head.append
  have hparts : Op.Spelled m.ops site.given ([Op.push (.text "iter"), .getMember] ++ ([Op.call] ++
    [Op.push .empty, .push (.text Compiler.hiddenIter), .assign .inner, .pop])) := hopening
  exact ⟨hparts.append.1, hparts.append.2.append⟩

/-- The method that gives an iterator of the source is looked up. -/
theorem proceeds_iter (h : site.Ready p k m) (hspares : site.Spares P)
    (hown : ∀ m₁ : Machine, m₁.world.store = s → Exec.ownMember object (.text "iter") m₁ = .ok none m₁)
    (hmethod : (m.withStore s).resolve (Key.join "iter" (s.typeName object)) = some (.native method)) :
    m.Proceeds pending k P site.given (object :: l) s (site.given + 2) (.bound method object :: l) s := by
  exact Machine.proceeds_method h.program (h.inside (h.head_lt (j := 1) (by decide))) h.calls h.opening.1 hown hmethod
    fun x hle hlt => hspares x (Or.inl ⟨hle, Nat.lt_of_lt_of_le hlt (Nat.add_le_add_left (by decide) _)⟩)

/-- The source is asked for an iterator, which is bound. -/
theorem opens (h : site.Ready p k m) (hframe : m.frame = some f) (hspares : site.Spares P)
    (hown : ∀ m₁ : Machine, m₁.world.store = s → Exec.ownMember object (.text "iter") m₁ = .ok none m₁)
    (hmethod : (m.withStore s).resolve (Key.join "iter" (s.typeName object)) = some (.native method))
    (harity : method.arity = some 1)
    (hdone : ∀ w : World, w.store = s → m.library.behaviour method [object] w = .done (some v) { w with store := s' })
    (hnatives : m.natives.size < nativeLimit) :
    m.Proceeds pending k P site.given (object :: .number (Number.ofNat 0) :: l) s (site.given + 7) l
      (s'.bindCopy f Compiler.hiddenIter v) := by
  obtain ⟨-, hcall, hbind⟩ := h.opening
  have hhead : ∀ {x}, site.given ≤ x → x < site.given + 28 → ¬ P x := fun hle hlt => hspares _ (Or.inl ⟨hle, hlt⟩)
  have hcalls : m.Proceeds pending k P (site.given + 2) (.bound method object :: .number (Number.ofNat 0) :: l) s
      (site.given + 3) (v :: l) s' :=
    Machine.proceeds_call h.program (h.inside (h.head_lt (j := 2) (by decide))) hcall.cons.1 harity hdone hnatives h.calls
      (hhead (Nat.le_add_right _ _) (Nat.add_lt_add_left (by decide) _))
  have hbinds : m.Passes (site.given + 3) (v :: l) s' (site.given + 7) l (s'.bindCopy f Compiler.hiddenIter v) :=
    Machine.passes_bind h.program (h.inside (h.head_lt (j := 6) (by decide))) hbind hframe (.inl rfl)
  exact (h.proceeds_iter hspares hown hmethod).trans (hcalls.trans (hbinds.proceeds h.calls pending fun x hle hlt =>
    hhead (Nat.le_trans (Nat.le_add_right _ _) hle) (Nat.lt_of_lt_of_le hlt (Nat.add_le_add_left (by decide) _))))

/-- Where natives are nested as deep as they may be, the loop neither makes a step nor comes to its end. -/
theorem starves (h : site.Ready p k m) (hspares : site.Spares P)
    (hown : ∀ m₁ : Machine, m₁.world.store = s → Exec.ownMember object (.text "iter") m₁ = .ok none m₁)
    (hmethod : (m.withStore s).resolve (Key.join "iter" (s.typeName object)) = some (.native method))
    (harity : method.arity = some 1) (hnatives : nativeLimit ≤ m.natives.size)
    (hm₁ : m.At site.given (object :: .number (Number.ofNat 0) :: l) s m₁) (e : State) :
    ¬ State.Comes pending k P ⟨m₁, pending, .running⟩ e := by
  have hlooks : m.Proceeds pending k P site.given (object :: .number (Number.ofNat 0) :: l) s (site.given + 2)
      (.bound method object :: .number (Number.ofNat 0) :: l) s := h.proceeds_iter hspares hown hmethod
  obtain ⟨m₂, hm₂, hnears⟩ := hlooks m₁ hm₁
  obtain ⟨s', hnears', hleft⟩ := State.refusesMethod (P := P) h.program (h.inside (h.head_lt (j := 2) (by decide)))
    h.opening.2.1.cons.1 harity hnatives h.calls
    (hspares _ (Or.inl ⟨Nat.le_add_right _ _, Nat.add_lt_add_left (by decide) _⟩)) hm₂
  exact (hnears.trans hnears').not_comes hleft

/-- The iterator is asked for its next step, which is bound. -/
theorem proceeds_stepping {scope : Scope} (h : site.Ready p k m) (hops : Op.Spelled m.ops i (stepping scope))
    (hi : i + 9 ≤ p.size) (hframe : m.frame = some f) (hiter : s.var f Compiler.hiddenIter = some (.inst it))
    (htraverses : s.Traverses it items n) (hscope : scope.Stays s f Compiler.hiddenStep)
    (hresolve : (m.withStore s).resolve (Key.join "next" iteratorName) =
      m.library.resolve (Key.join "next" iteratorName))
    (hnatives : m.natives.size < nativeLimit) (hstop : ∀ x, i ≤ x → x < i + 9 → ¬ P x) :
    m.Proceeds pending k P i l s (i + 9) l (s.steppedIn f it n (s.element? items n)) := by
  obtain ⟨method, hmethod, harity, hbehaviour⟩ := h.iterates.steps
  have hparts : Op.Spelled m.ops i ([Op.push (.number (Number.ofNat 0)), .getVar Compiler.hiddenIter] ++
    ([Op.push (.text "next"), .getMember] ++ ([Op.call] ++ [Op.push .empty, .push (.text Compiler.hiddenStep),
      .assign scope, .pop]))) := hops
  obtain ⟨hload, hrest⟩ := hparts.append
  obtain ⟨hlook, hrest⟩ := hrest.append
  obtain ⟨hcall, hbind⟩ := hrest.append
  obtain ⟨hzero, hload⟩ := hload.cons
  have hfound : (m.withStore s).resolve Compiler.hiddenIter = some (.inst it) :=
    Machine.resolve_of_found (hframe ▸ Store.lookup_of_var hiter)
  have hframes : (s.stepped it n (s.element? items n)).frames = s.frames := by
    cases s.element? items n <;> rfl
  have hdone : ∀ w : World, w.store = s → m.library.behaviour method [.inst it] w =
      .done (some (.list s.lists.size)) { w with store := s.stepped it n (s.element? items n) } := by
    rintro w rfl
    rw [hbehaviour it w htraverses.builtin, Action.ofEffect_ok (Native.next_traverses htraverses)]
  have hloads : m.Passes i l s (i + 2) (.inst it :: .number (Number.ofNat 0) :: l) s :=
    (Machine.passes_push h.program (by omega) hzero).trans (Machine.passes_getVar h.program (by omega) hload.cons.1 hfound)
  have hlooks : m.Proceeds pending k P (i + 2) (.inst it :: .number (Number.ofNat 0) :: l) s (i + 4)
      (.bound method (.inst it) :: .number (Number.ofNat 0) :: l) s := by
    refine Machine.proceeds_method h.program (by omega) h.calls hlook (fun m₁ hstore => ?_) ?_
      fun x hle hlt => hstop x (by omega) (by omega)
    · show Exec.reads (fun m => m.world.store.field? it "next") m₁ = _
      rw [← htraverses.field?.2.2, ← hstore]
      rfl
    · rw [htraverses.typeName, hresolve]
      exact hmethod
  have hcalls : m.Proceeds pending k P (i + 4) (.bound method (.inst it) :: .number (Number.ofNat 0) :: l) s (i + 5)
      (.list s.lists.size :: l) (s.stepped it n (s.element? items n)) :=
    Machine.proceeds_call h.program (by omega) hcall.cons.1 harity hdone hnatives h.calls (hstop _ (by omega) (by omega))
  have hbinds : m.Passes (i + 5) (.list s.lists.size :: l) (s.stepped it n (s.element? items n)) (i + 9) l
      (s.steppedIn f it n (s.element? items n)) :=
    Machine.passes_bind h.program (by omega) hbind hframe (hscope.imp_right (And.imp_right fun hbinds => by
      unfold Store.Binds at hbinds ⊢
      rw [Store.frame?_of_frames hframes]
      exact hbinds))
  exact (hloads.proceeds h.calls pending fun x hle hlt => hstop x hle (by omega)).trans (hlooks.trans (hcalls.trans
    (hbinds.proceeds h.calls pending fun x hle hlt => hstop x (by omega) (by omega))))

/-- Part of a step is taken. -/
theorem passes_part {vs : List Value} {list : ListId} (h : site.Ready p k m)
    (hops : Op.Spelled m.ops i [.getVar Compiler.hiddenStep, .push (.number (Number.ofNat (n + 1))), .getMember])
    (hi : i + 3 ≤ p.size) (hfound : (m.withStore s).resolve Compiler.hiddenStep = some (.list list))
    (hlist : s.Sequence list vs) (hlength : vs.length < 2 ^ 53) (hv : vs[n]? = some v) :
    m.Passes i l s (i + 3) (v :: l) s := by
  obtain ⟨hstep, hops⟩ := hops.cons
  obtain ⟨hpart, hops⟩ := hops.cons
  have hlt : n < vs.length := (List.getElem?_eq_some_iff.mp hv).1
  refine (Machine.passes_getVar h.program (by omega) hstep hfound).trans
    ((Machine.passes_push h.program (by omega) hpart).trans (Machine.passes_getMember h.program (by omega) hops.cons.1 ?_))
  rintro m₁ rfl -
  have hmember : Exec.member (.list list) (.number (Number.ofNat (n + 1))) m₁ = _ :=
    Exec.member_position hlist hlength ⟨hlt, _, rfl, Number.value?_ofNat (by omega)⟩
  rw [Option.some.inj (hv.symm.trans (hlist.get hlt))]
  exact hmember

end EachSite.Ready

/-!
# From place to place
-/

/-- At position `j` of the loop, whose scope lies in the frame `o`, the iterator is before position `i` of the list;
the operands are those that the loop began with. -/
structure Machine.Iterating (V : Veil) (m : Machine) (f : FrameId) (o : Option FrameId) (l : List Value)
    (it : InstanceId) (items : ListId) (i j : Nat) : Prop where
  ip : m.ip = j
  frame : m.frame = some f
  operands : m.Stacks l
  natives : m.natives.size < nativeLimit
  store : m.world.store.Iterating V f o it items i
  veiled : m.Veiled V

/-- Where operands are left that were shown, and the store has become another one, the engine is veiled. -/
theorem Machine.Veiled.at {V V' : Veil} (h : m.Veiled V) (hat : m.At i l s m₁) (hs : s.Veiled V')
    (hl : ∀ v ∈ l, v ∈ m.stack.items) (hshows : ∀ v, m.world.store.Shows V v → s.Shows V' v) : m₁.Veiled V' := by
  have hstacks := hat.operands
  refine ⟨hat.store.symm ▸ hs, ?_, hstacks.backed, fun v hv => ?_⟩
  · rw [hat.library, hat.store]
    exact h.bindings.imp hshows
  · rw [hat.store]
    exact hshows v (h.operands v (hl v (hstacks.items ▸ hv)))

namespace EachSite.Ready

variable {V : Veil} {site : EachSite} {f : FrameId} {o : Option FrameId} {it : InstanceId} {items : ListId}
  {found : Option Value}

/-- The iterator is asked for a step, and the test of the next round comes. -/
theorem asks (h : site.Ready p k m) (hframe : m.frame = some f) (hiter : s.var f Compiler.hiddenIter = some (.inst it))
    (htraverses : s.Traverses it items n) (hasks : site.Asks s f j)
    (hresolve : (m.withStore s).resolve (Key.join "next" iteratorName) =
      m.library.resolve (Key.join "next" iteratorName))
    (hnatives : m.natives.size < nativeLimit) (hspares : site.Spares P) :
    m.Proceeds pending k P j l s site.first l (s.steppedIn f it n (s.element? items n)) := by
  rcases hasks with rfl | ⟨rfl, hbinds⟩
  · obtain ⟨-, hrest⟩ := h.written.head.append
    exact h.proceeds_stepping hrest.append.1 (h.inside (h.head_lt (j := 15) (by decide))) hframe hiter htraverses
      (.inl rfl) hresolve hnatives fun x hle hlt => hspares x (Or.inl ⟨Nat.le_trans (Nat.le_add_right _ _) hle,
        Nat.lt_of_lt_of_le hlt (Nat.add_le_add_left (by decide : 16 ≤ 28) _)⟩)
  · obtain ⟨hstep, hclosing⟩ := h.written.tail.append
    have hstop : site.stop = site.again + 12 := rfl
    have hsteps : m.Proceeds pending k P site.again l s (site.again + 9) l (s.steppedIn f it n (s.element? items n)) :=
      h.proceeds_stepping hstep (h.inside (i := site.again + 8) (by omega)) hframe hiter htraverses
        (.inr ⟨rfl, hbinds⟩) hresolve hnatives fun x hle hlt => hspares x (Or.inr ⟨hle, by omega⟩)
    refine hsteps.trans fun m₁ hm₁ => ?_
    have hlimit : site.first ≤ Slot.limit := Nat.le_trans (Nat.le_of_lt (h.head_lt (j := 16) (by decide)))
      (Nat.le_trans h.written.size h.limit)
    obtain ⟨m₂, hat, hnears⟩ := State.jumps (P := P) (k := k) (t := site.first) (hm₁.program.trans h.program) hm₁.ip_eq
      (h.inside (i := site.again + 9) (by omega)) (hm₁.ops ▸ hclosing.cons.1) hm₁.operands
      (by unfold EachSite.leave; omega) hlimit (hm₁.calls ▸ h.calls) pending (hspares _ (Or.inr ⟨by omega, by omega⟩))
    rw [hm₁.store] at hat
    exact ⟨m₂, hm₁.trans hat, hnears⟩

/-- The test of a round. -/
theorem tests (h : site.Ready p k m) (hframe : m.frame = some f) (hoffers : s.Offers f found) (hspares : site.Spares P) :
    m.Proceeds pending k P site.first l s (if found.isSome then site.round else site.leave) l s := by
  obtain ⟨list, hstep, hlist⟩ := hoffers
  obtain ⟨-, hrest⟩ := h.written.head.append
  obtain ⟨-, hrest⟩ := hrest.append
  have htest : Op.Spelled m.ops site.first ([Op.getVar Compiler.hiddenStep, .push (.number (Number.ofNat 2)),
    .getMember] ++ [Op.jumpIfFalse ((site.leave : Int) - site.round)]) := hrest.append.1
  have hhead : ∀ {x}, site.first ≤ x → x < site.round → ¬ P x := fun hle hlt => hspares _ (Or.inl
    ⟨Nat.le_trans (Nat.le_add_right _ _) hle, Nat.lt_trans hlt (Nat.add_lt_add_left (by decide : 20 < 28) _)⟩)
  have hpart : m.Passes site.first l s (site.first + 3) (.boolean found.isSome :: l) s :=
    h.passes_part htest.append.1 (h.inside (h.head_lt (j := 18) (by decide)))
      (Machine.resolve_of_found (hframe ▸ Store.lookup_of_var hstep)) hlist
      (by cases found <;> exact (by decide : 2 < 2 ^ 53)) (by cases found <;> rfl)
  have hround : site.first + 3 < site.round := Nat.lt_succ_self _
  refine (hpart.proceeds h.calls pending fun x hle hlt => hhead hle (Nat.lt_trans hlt hround)).trans fun m₁ hm₁ => ?_
  have hlimit : site.leave ≤ Slot.limit := by
    refine Nat.le_trans ?_ (Nat.le_trans h.written.size h.limit)
    unfold EachSite.leave EachSite.stop
    omega
  obtain ⟨m₂, hat, hnears⟩ := State.branches (P := P) (k := k) (t := site.leave) (hm₁.program.trans h.program) hm₁.ip_eq
    (h.inside (h.head_lt (j := 19) (by decide))) (hm₁.ops ▸ htest.append.2.cons.1) hm₁.operands
    (by unfold EachSite.round EachSite.first; omega) hlimit (hm₁.calls ▸ h.calls) pending
    (hhead (Nat.le_add_right _ _) hround)
  rw [hm₁.store] at hat
  refine ⟨m₂, ?_, hnears⟩
  cases found <;> exact hm₁.trans hat

/-- The next step is made, and then a round begins if it gives an element, or else the loop is left. -/
theorem turns (h : site.Ready p k m) (hcovers : V.Covers f it) (hit : m.Iterating V f o l it items i j)
    (hasks : site.Asks m.world.store f j) (hfound : found = m.world.store.element? items i)
    (hresolve : m.resolve (Key.join "next" iteratorName) = m.library.resolve (Key.join "next" iteratorName))
    (hspares : site.Spares P) (pending : List Pending) :
    ∃ m₂ : Machine, m₂.Iterating V f o l it items (if found.isSome then min (i + 1) (2 ^ 53) else i)
        (if found.isSome then site.round else site.leave) ∧ m₂.world.store.Offers f found ∧
      m.world.store.Leaves it m₂.world.store ∧ m₂.calls = m.calls ∧
      State.Nears pending k P ⟨m, pending, .running⟩ ⟨m₂, pending, .running⟩ := by
  obtain ⟨hstepped, hoffers, hleaves⟩ := hit.store.steppedIn hcovers
    (hfound ▸ hit.store.veiled.element? items i)
  have hmade : m.Proceeds pending k P j l m.world.store site.first l
      (m.world.store.steppedIn f it i (m.world.store.element? items i)) :=
    h.asks hit.frame hit.store.iterator hit.store.traverses hasks hresolve hit.natives hspares
  rw [← hfound] at hmade
  obtain ⟨m₂, hat, hnears⟩ := hmade.trans (h.tests hit.frame hoffers hspares) m (Machine.At.self hit.operands hit.ip)
  refine ⟨m₂, ⟨hat.ip_eq, hat.frame.trans hit.frame, hat.operands, hat.natives ▸ hit.natives, hat.store ▸ hstepped, ?_⟩,
    hat.store ▸ hoffers, hat.store ▸ hleaves, hat.calls, hnears⟩
  exact hit.veiled.at hat hstepped.veiled (fun v hv => hit.operands.items ▸ hv) fun v hv => hv.mono hleaves.le

/-- A round begins: a scope is opened, and the element is bound in it. -/
theorem binds {s₀ : Store} (h : site.Ready p k m) (hit : m.Iterating V f o l it items i site.round)
    (hoffers : m.world.store.Offers f (some v)) (hleaves : s₀.Leaves it m.world.store) (hv : s₀.Has v)
    (hne : v ≠ .inst it) (hstop : ∀ x, site.round ≤ x → x < site.inside → ¬ P x) (pending : List Pending) :
    ∃ (m₂ : Machine) (w : Value), m₂.ip = site.inside ∧ m₂.frame = some m.world.store.frames.size ∧
      m₂.world.store.frame? m.world.store.frames.size =
        some ⟨Table.empty.insert site.name w, some f, .block⟩ ∧
      s₀.CopiedAs m₂.world.store site.name v w ∧ m₂.calls = m.calls ∧
      State.Nears pending k P ⟨m, pending, .running⟩ ⟨m₂, pending, .running⟩ := by
  obtain ⟨list, hstep, hlist⟩ := hoffers
  obtain ⟨-, hrest⟩ := h.written.head.append
  obtain ⟨-, hrest⟩ := hrest.append
  have hbinding : Op.Spelled m.ops site.round ([Op.scopeEnter] ++ ([Op.getVar Compiler.hiddenStep,
    .push (.number (Number.ofNat 1)), .getMember] ++ [Op.push .empty, .push (.text site.name), .assign .inner, .pop])) :=
    hrest.append.2
  obtain ⟨henter, hparts⟩ := hbinding.append
  obtain ⟨hpart, hbind⟩ := hparts.append
  obtain ⟨w, hw, hcopied⟩ := Store.bindElement hleaves hit.store.veiled hv hne f site.name
  obtain ⟨g, hg⟩ : ∃ g, g = m.world.store.frames.size := ⟨_, rfl⟩
  obtain ⟨st, hst⟩ : ∃ st, st = (m.world.store.newFrame ⟨Table.empty, some f, .block⟩).2 := ⟨_, rfl⟩
  -- the engine in the scope of the round
  obtain ⟨jn, hnext⟩ := State.opensScope h.program hit.ip (h.inside (h.head_lt (j := 20) (by decide))) henter.cons.1 pending
  rw [hit.frame, ← hst, ← hg] at hnext
  obtain ⟨m', hm'⟩ : ∃ m' : Machine, m' = { m with frame := some g } := ⟨_, rfl⟩
  have hready : site.Ready p k m' := by
    rw [hm']
    exact ⟨h.written, h.program, h.size, h.limit, h.calls, h.iterates⟩
  have hat₁ : m'.At (site.round + 1) l st
      { (m.withStore st).withJournal jn with frame := some g, ip := ((site.round + 1 : Nat) : Int) } := by
    rw [hm']
    exact .mk (m := { m with frame := some g }) (j := jn) hit.operands.backed hit.operands.items
  have hframe : m'.frame = some g := by rw [hm']
  have hops : m'.ops = m.ops := by rw [hm']
  have hlt : f < g := by
    obtain ⟨fr, hfr, -⟩ := hit.store.scope
    rw [hg]
    exact (Array.getElem?_eq_some_iff.mp hfr).1
  have hopened : st.frame? g = some ⟨Table.empty, some f, .block⟩ := by
    rw [hst, hg]
    exact Store.newFrame_frame? _ _
  have hvar : st.var f Compiler.hiddenStep = some (.list list) := by
    rw [hst, ← hstep]
    exact Store.var_congr (Store.frame?_newFrame_of_lt _ (hg ▸ hlt)) _
  have hfound : (m'.withStore st).resolve Compiler.hiddenStep = some (.list list) :=
    Machine.resolve_of_found (hframe ▸ Store.lookup_block hopened rfl rfl rfl hlt hvar)
  have hsequence : st.Sequence list [v, .boolean true] := by
    rw [hst]
    exact hlist.of_same rfl rfl
  have hpasses : m'.Passes (site.round + 1) l st site.inside l (st.bindCopy g site.name v) :=
    (hready.passes_part (hops ▸ hpart) (hready.inside (hready.head_lt (j := 23) (by decide))) hfound hsequence
      (by decide : 2 < 2 ^ 53) rfl).trans
      (Machine.passes_bind hready.program (hready.inside (hready.head_lt (j := 27) (by decide))) (hops ▸ hbind) hframe
        (.inl rfl))
  obtain ⟨m₂, hat₂, hnears⟩ := hpasses.nears (P := P) hat₁ hready.calls pending
    fun x hle hlt => hstop x (Nat.le_of_succ_le hle) hlt
  have hstore : m₂.world.store =
      (m.world.store.newFrame ⟨Table.empty, some f, .block⟩).2.bindCopy m.world.store.frames.size site.name v := by
    rw [hat₂.store, hst, hg]
  refine ⟨m₂, w, hat₂.ip_eq, hg ▸ hat₂.frame.trans hframe, hstore ▸ hw, hstore ▸ hcopied, ?_,
    (State.Nears.step h.calls hit.ip (hstop _ (Nat.le_refl _) (Nat.lt_add_of_pos_right (by decide : 0 < 8))) hnext).trans
      hnears⟩
  rw [hat₂.calls, hm']

/-- The end of the loop. -/
theorem closes (h : site.Ready p k m) (hit : m.Iterating V f o l it items i site.leave)
    (hstop : ∀ x, site.leave ≤ x → x < site.stop → ¬ P x) (pending : List Pending) :
    ∃ m₂ : Machine, m₂.ip = site.stop ∧ m₂.calls = m.calls ∧ m₂.frame = o ∧ m₂.Stacks (.null :: l) ∧
      State.Nears pending k P ⟨m, pending, .running⟩ ⟨m₂, pending, .running⟩ := by
  obtain ⟨fr, hfr, houter, hblock⟩ := hit.store.scope
  have hclosing : Op.Spelled m.ops (site.again + 9) ([Op.jump ((site.first : Int) - site.leave)] ++
    [Op.scopeExit, .push .null]) := h.written.tail.append.2
  have hrest : Op.Spelled m.ops site.leave [.scopeExit, .push .null] := hclosing.append.2
  obtain ⟨hexit, hlast⟩ := hrest.cons
  have hleave : site.leave + 2 = site.stop := rfl
  obtain ⟨m₁, hat₁, hnears₁⟩ := State.leavesScope (P := P) h.program hit.ip (h.inside (by omega)) hexit hit.frame hfr hblock
    hit.operands h.calls pending (hstop _ (Nat.le_refl _) (by omega))
  obtain ⟨m₂, hat₂, hnears₂⟩ := (Machine.passes_push (m := { m with frame := fr.outer }) (l := l)
    (s := m.world.store) h.program (h.inside (by omega)) hlast.cons.1).nears (P := P) (k := k) hat₁ h.calls pending
    fun x hle hlt => hstop x (Nat.le_of_succ_le hle) (by omega)
  exact ⟨m₂, hat₂.ip_eq, hat₂.calls, hat₂.frame.trans houter, hat₂.operands, hnears₁.trans hnears₂⟩

end EachSite.Ready

end
end ScriptEngine
