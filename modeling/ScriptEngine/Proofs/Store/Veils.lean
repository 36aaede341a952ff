import ScriptEngine.Proofs.Store.Bindings
import ScriptEngine.Proofs.Store.Copies
import ScriptEngine.Proofs.Store.Dicts
import ScriptEngine.Proofs.Text.Keys

/-!
# Hidden objects

A veil hides some objects of a store, and at most one binding: that of a name in one frame. A store is
veiled if no hidden object can be reached from anything else: what lists, dicts, instances, closures and
frames hold that are not hidden is not hidden either. Work with values that are not hidden leaves the store
veiled, and spares what the hidden objects hold.
-/

namespace ScriptEngine

/-- What is hidden of a store, and the binding that is: the frame and the name, which is not that of a
member of a type. -/
structure Veil where
  hidden : Value → Prop
  slot : Option (FrameId × Text)
  unjoined : ∀ e, slot = some e → ∀ (name : Text) {type : Text}, type.isEmpty = false → Key.join name type ≠ e.2

/-- Nothing is hidden. -/
def Veil.clear : Veil :=
  ⟨fun _ => False, none, fun _ h => by cases h⟩

/-- The veil hides one more value if that is an object. -/
def Veil.hide (V : Veil) (u : Value) : Veil where
  hidden v := V.hidden v ∨ v = u ∧ u.isHandle = true
  slot := V.slot
  unjoined := V.unjoined

/-- The veil over the exports of a program, which are bound in its root frame. -/
def Veil.exports (root : FrameId) : Veil :=
  ⟨fun _ => False, some (root, Key.exports), by
    rintro _ ⟨⟩ name type htype
    exact Key.join_ne (t := Key.exports) (by decide +kernel) name htype⟩

/-- Where the name is found from a frame on, the binding is not the hidden one. -/
def Veil.Misses (V : Veil) (s : Store) (f : Option FrameId) (name : Text) : Prop :=
  ∀ g, V.slot = some (g, name) → ∀ v shallow, s.lookup f name shallow ≠ some (v, g)

/-- Only the binding of another name is hidden. -/
theorem Veil.misses_of_ne {V : Veil} {name : Text} (h : ∀ g, V.slot ≠ some (g, name)) (s : Store)
    (f : Option FrameId) : V.Misses s f name :=
  fun g hg => absurd hg (h g)

/-- No object in the value is hidden. Markers are no values that programs work with, and a record type
has a name. -/
def Value.Shown (hidden : Value → Prop) : Value → Prop
  | .list l => ¬ hidden (.list l)
  | .dict d => ¬ hidden (.dict d)
  | .closure c => ¬ hidden (.closure c)
  | .inst i => ¬ hidden (.inst i)
  | .bound _ receiver => receiver.Shown hidden
  | .type t => t.record = true → t.name.isEmpty = false
  | .empty => False
  | _ => True

theorem Table.mem_update_ne {α : Type} {key : Text} {v : α} {e : Text × α} {entries : List (Text × α)}
    (h : e ∈ update key v entries) (hne : e.1 ≠ key) : e ∈ entries := by
  induction entries with
  | nil =>
    rw [List.mem_singleton.mp h] at hne
    exact absurd rfl hne
  | cons e' rest ih =>
    unfold update at h
    split at h
    · rename_i hkey
      rcases List.mem_cons.mp h with rfl | h
      · exact absurd hkey hne
      · exact List.mem_cons_of_mem _ h
    · rcases List.mem_cons.mp h with rfl | h
      · exact List.mem_cons_self
      · exact List.mem_cons_of_mem _ (ih h)

namespace Store

/-- The value is in scope of the store and not hidden. -/
structure Shows (V : Veil) (s : Store) (v : Value) : Prop where
  has : s.Has v
  shown : v.Shown V.hidden

/-- The value is held somewhere in the store where programs may come across it. -/
inductive Keeps (V : Veil) (s : Store) : Value → Prop
  | cell {row : Row} {v : Value} (h : row ∈ s.rows) (hv : v ∈ row.cells) : Keeps V s v
  | entry {d : DictId} {t : Table Value} {e : Text × Value} (h : s.dicts[d]? = some t)
    (hd : ¬ V.hidden (.dict d)) (he : e ∈ t.entries) : Keeps V s e.2
  | field {i : InstanceId} {inst : Instance} {e : Text × Value} (h : s.instances[i]? = some inst)
    (hi : ¬ V.hidden (.inst i)) (he : e ∈ inst.fields.entries) : Keeps V s e.2
  | receiver {c : Closure} {v : Value} (h : c ∈ s.closures) (hv : c.receiver = some v) : Keeps V s v
  | var {f : FrameId} {fr : Frame} {e : Text × Value} (h : s.frame? f = some fr)
    (he : e ∈ fr.vars.entries) (hf : V.slot ≠ some (f, e.1)) : Keeps V s e.2

/-- Nothing hidden can be reached. -/
structure Veiled (V : Veil) (s : Store) : Prop where
  seen : ∀ v, s.Keeps V v → s.Shows V v
  typed : ∀ inst ∈ s.instances, inst.type.name.isEmpty = false
  known : ∀ v, V.hidden v → v.isHandle = true ∧ s.Has v
  windows : ∀ w ∈ s.lists, w.row < s.rows.size
  separate : s.Separate
  slot : ∀ e, V.slot = some e → e.1 < s.frames.size

/-- The second store is veiled, and what is hidden is as it was in the first one; and no dict has got a key
twice. -/
structure Spares (V : Veil) (s s' : Store) : Prop where
  veiled : s'.Veiled V
  le : s.Le s'
  content : ∀ v, V.hidden v → s'.content v = s.content v
  sizes : ∀ l, V.hidden (.list l) → s'.listSize l = s.listSize l
  bound : ∀ e, V.slot = some e → ∀ v, s'.Holds e.1 e.2 v ↔ s.Holds e.1 e.2 v
  distinct : s.Distinct → s'.Distinct

section
variable {V : Veil} {s s' s'' : Store} {v w : Value}

theorem Shows.mono (h : s.Shows V v) (hle : s.Le s') : s'.Shows V v :=
  ⟨h.has.mono hle, h.shown⟩

theorem Veiled.refl (h : s.Veiled V) : s.Spares V s :=
  ⟨h, .refl s, fun _ _ => rfl, fun _ _ => rfl, fun _ _ _ => Iff.rfl, id⟩

theorem Spares.trans (h : s.Spares V s') (h' : s'.Spares V s'') : s.Spares V s'' where
  veiled := h'.veiled
  le := h.le.trans h'.le
  content v hv := (h'.content v hv).trans (h.content v hv)
  sizes l hl := (h'.sizes l hl).trans (h.sizes l hl)
  bound e he v := (h'.bound e he v).trans (h.bound e he v)
  distinct hs := h'.distinct (h.distinct hs)

theorem Spares.shows (h : s.Spares V s') (hv : s.Shows V v) : s'.Shows V v :=
  hv.mono h.le

/-- An object that is not in scope is not hidden. -/
theorem Veiled.not_hidden (h : s.Veiled V) (hv : ¬ s.Has v) : ¬ V.hidden v :=
  fun hhidden => hv (h.known v hhidden).2

/-!
# Reading
-/

theorem Veiled.rowCells (h : s.Veiled V) (r : Nat) : ∀ v ∈ s.rowCells r, s.Shows V v := by
  intro v hv
  unfold Store.rowCells at hv
  split at hv
  · rename_i row hrow
    exact h.seen v (.cell (Array.mem_of_getElem? hrow) hv)
  · exact absurd hv (Array.not_mem_empty v)

theorem Veiled.listGet (h : s.Veiled V) (l : ListId) (i : Nat) : s.Shows V (s.listGet l i) := by
  unfold Store.listGet Store.rowGet
  cases hv : (s.rowCells (s.window l).row)[i]? with
  | none => exact ⟨trivial, trivial⟩
  | some v => exact h.rowCells _ v (Array.mem_of_getElem? hv)

theorem Veiled.items (h : s.Veiled V) (l : ListId) : ∀ v ∈ s.items l, s.Shows V v := by
  intro v hv
  unfold Store.items at hv
  dsimp only at hv
  split at hv
  · exact h.rowCells _ v hv
  · obtain ⟨i, hi⟩ := Array.mem_iff_getElem?.mp hv
    rw [Array.getElem?_extract] at hi
    split at hi
    · exact h.rowCells _ v (Array.mem_of_getElem? hi)
    · cases hi

theorem Veiled.dict (h : s.Veiled V) {d : DictId} (hd : ¬ V.hidden (.dict d)) :
    (s.dict d).Every (s.Shows V) := by
  unfold Store.dict
  cases ht : s.dicts[d]? with
  | none => exact Table.Every.empty
  | some t => exact fun e he => h.seen e.2 (.entry ht hd he)

theorem Veiled.fields (h : s.Veiled V) {i : InstanceId} {inst : Instance} (hi : ¬ V.hidden (.inst i))
    (hinst : s.instances[i]? = some inst) : inst.fields.Every (s.Shows V) :=
  fun _ he => h.seen _ (.field hinst hi he)

theorem Veiled.field (h : s.Veiled V) {i : InstanceId} (hi : ¬ V.hidden (.inst i)) {k : Text}
    (hv : s.field? i k = some v) : s.Shows V v := by
  unfold field? at hv
  split at hv
  · rename_i inst hinst
    exact (h.fields hi hinst).get? hv
  · cases hv

theorem Veiled.closure (h : s.Veiled V) {c : ClosureId} {cl : Closure} (hc : s.closure? c = some cl)
    (hv : cl.receiver = some v) : s.Shows V v :=
  h.seen v (.receiver (Array.mem_of_getElem? hc) hv)

/-- The binding of a frame is found from there. -/
theorem Holds.lookup {f : FrameId} {name : Text} (h : s.Holds f name v) (shallow : Bool) :
    s.lookup (some f) name shallow = some (v, f) := by
  obtain ⟨fr, hfr, hv⟩ := h
  unfold Store.lookup walkFuel lookupFrom
  simp only [hfr, hv]

/-- A frame that binds the name itself hides an outer binding of it. -/
theorem misses_of_binds {f : FrameId} {name : Text} (h : s.Binds f name) (hf : V.slot ≠ some (f, name)) :
    V.Misses s (some f) name := by
  obtain ⟨fr, hfr, hbound⟩ := h
  obtain ⟨w, hw⟩ := Option.isSome_iff_exists.mp hbound
  intro g hg v shallow hfound
  have hhere : s.Holds f name w := ⟨fr, hfr, hw⟩
  rw [hhere.lookup shallow] at hfound
  cases hfound
  exact hf hg

/-- What is found for a name is bound to it in the frame where it is found. -/
theorem holds_of_lookup {name : Text} {shallow : Bool} {f : Option FrameId} {owner : FrameId}
    (hv : s.lookup f name shallow = some (v, owner)) : s.Holds owner name v := by
  have hwalk : ∀ fuel f, s.lookupFrom name shallow fuel f = some (v, owner) → s.Holds owner name v := by
    intro fuel
    induction fuel with
    | zero =>
      intro f hf
      cases f <;> cases hf
    | succ fuel ih =>
      intro f hf
      cases f with
      | none => cases hf
      | some f =>
        rw [lookupFrom] at hf
        split at hf
        · cases hf
        rename_i fr hfr
        split at hf
        · rename_i v' hv'
          cases hf
          exact ⟨fr, hfr, hv'⟩
        · split at hf
          · cases hf
          · exact ih _ hf
  exact hwalk _ f hv

theorem Veiled.holds (h : s.Veiled V) {name : Text} {f : FrameId} (hv : s.Holds f name v)
    (hf : V.slot ≠ some (f, name)) : s.Shows V v := by
  obtain ⟨fr, hfr, hv⟩ := hv
  exact h.seen v (.var (e := (name, v)) hfr (Table.mem_of_lookup hv) hf)

theorem Veiled.lookup (h : s.Veiled V) {name : Text} {shallow : Bool} {f : Option FrameId} {owner : FrameId}
    (hname : V.Misses s f name) (hv : s.lookup f name shallow = some (v, owner)) : s.Shows V v :=
  h.holds (holds_of_lookup hv) fun hslot => hname owner hslot v shallow hv

/-- The type name of an object in scope is not empty. -/
theorem Veiled.typeName (h : s.Veiled V) (hv : s.Has v) : (s.typeName v).isEmpty = false := by
  cases v with
  | inst i =>
    have hi : s.instances[i]? = some s.instances[i] := Array.getElem?_eq_getElem hv
    unfold Store.typeName instanceType
    simp only [hi]
    exact h.typed _ (Array.mem_of_getElem? hi)
  | _ => rfl

theorem Veiled.instanceType (h : s.Veiled V) {i : InstanceId} (hi : s.Has (.inst i)) :
    (s.instanceType i).name.isEmpty = false :=
  h.typeName hi

/-!
# Changing

A change spares what is hidden if it does not touch it, and if all that is new is shown.
-/

theorem Veiled.spares (h : s.Veiled V) (hle : s.Le s')
    (hkeeps : ∀ v, s'.Keeps V v → s.Keeps V v ∨ s'.Shows V v)
    (htyped : ∀ inst ∈ s'.instances, inst.type.name.isEmpty = false)
    (hwindows : ∀ w ∈ s'.lists, w.row < s'.rows.size) (hseparate : s'.Separate)
    (hcontent : ∀ v, V.hidden v → s'.content v = s.content v)
    (hsizes : ∀ l, V.hidden (.list l) → s'.lists[l]? = s.lists[l]?)
    (hbound : ∀ e, V.slot = some e → ∀ v, s'.Holds e.1 e.2 v ↔ s.Holds e.1 e.2 v)
    (hdistinct : s.Distinct → s'.Distinct) : s.Spares V s' where
  veiled :=
    { seen := fun v hv => by
        rcases hkeeps v hv with hv | hv
        · exact (h.seen v hv).mono hle
        · exact hv
      typed := htyped
      known := fun v hv => ⟨(h.known v hv).1, (h.known v hv).2.mono hle⟩
      windows := hwindows
      separate := hseparate
      slot := fun e he => Nat.lt_of_lt_of_le (h.slot e he) hle.frames }
  le := hle
  content := hcontent
  sizes l hl := by
    unfold listSize window
    rw [hsizes l hl]
  bound := hbound
  distinct := hdistinct

theorem holds_congr {f : FrameId} {name : Text} (h : s'.frame? f = s.frame? f) :
    s'.Holds f name v ↔ s.Holds f name v := by
  unfold Holds
  rw [h]

/-- A change that leaves the frames. -/
theorem Veiled.spares_of_frames (h : s.Veiled V) (hle : s.Le s')
    (hkeeps : ∀ v, s'.Keeps V v → s.Keeps V v ∨ s'.Shows V v)
    (htyped : ∀ inst ∈ s'.instances, inst.type.name.isEmpty = false)
    (hwindows : ∀ w ∈ s'.lists, w.row < s'.rows.size) (hseparate : s'.Separate)
    (hcontent : ∀ v, V.hidden v → s'.content v = s.content v)
    (hsizes : ∀ l, V.hidden (.list l) → s'.lists[l]? = s.lists[l]?) (hframes : s'.frames = s.frames)
    (hdistinct : s.Distinct → s'.Distinct) : s.Spares V s' :=
  h.spares hle hkeeps htyped hwindows hseparate hcontent hsizes
    (fun f _ _ => holds_congr (by unfold frame?; rw [hframes])) hdistinct

theorem Veiled.newListIn (h : s.Veiled V) {items : Array Value} (hitems : ∀ v ∈ items, s.Shows V v)
    (capacity : Nat) : s.Spares V (s.newListIn items capacity).2 := by
  have hintact := Intact.newListIn h.windows items capacity
  refine h.spares_of_frames hintact.le ?_ h.typed ?_ (h.separate.newListIn h.windows items capacity)
    (fun v hv => hintact.content v (h.known v hv).2) (fun l hl => getElem?_push_old (h.known _ hl).2) rfl
    fun hs => hs.of_same rfl
  · intro v hv
    cases hv with
    | cell hrow hv =>
      rcases Array.mem_push.mp hrow with hrow | rfl
      · exact Or.inl (.cell hrow hv)
      · exact Or.inr ((hitems v hv).mono hintact.le)
    | entry ht hd he => exact Or.inl (.entry ht hd he)
    | field hinst hi he => exact Or.inl (.field hinst hi he)
    | receiver hc hv => exact Or.inl (.receiver hc hv)
    | var hfr he hf => exact Or.inl (.var hfr he hf)
  · intro w hw
    rcases Array.mem_push.mp hw with hw | rfl
    · exact Nat.lt_of_lt_of_le (h.windows w hw) hintact.le.rows
    · exact size_lt_push _ _

theorem Veiled.newDict (h : s.Veiled V) {entries : Table Value} (hentries : entries.Every (s.Shows V))
    (hkeys : s.Distinct → entries.keys.Nodup) : s.Spares V (s.newDict entries).2 := by
  have hintact := Intact.newDict s entries
  refine h.spares_of_frames hintact.le ?_ h.typed h.windows h.separate
    (fun v hv => hintact.content v (h.known v hv).2) (fun _ _ => rfl) rfl
    fun hs => (Adds.newDict s (hkeys hs)).distinct hs
  intro v hv
  cases hv with
  | cell hrow hv => exact Or.inl (.cell hrow hv)
  | @entry d t e ht hd he =>
    have ht : (s.dicts.push entries)[d]? = some t := ht
    rw [Array.getElem?_push] at ht
    split at ht
    · cases ht
      exact Or.inr ((hentries e he).mono hintact.le)
    · exact Or.inl (.entry ht hd he)
  | field hinst hi he => exact Or.inl (.field hinst hi he)
  | receiver hc hv => exact Or.inl (.receiver hc hv)
  | var hfr he hf => exact Or.inl (.var hfr he hf)

theorem Veiled.pushInstance (h : s.Veiled V) {inst : Instance}
    (hinst : inst.fields.Every (s.Shows V)) (htype : inst.type.name.isEmpty = false) :
    s.Spares V { s with instances := s.instances.push inst } := by
  have hintact := Intact.pushInstance s inst
  refine h.spares_of_frames hintact.le ?_ ?_ h.windows h.separate
    (fun v hv => hintact.content v (h.known v hv).2) (fun _ _ => rfl) rfl fun hs => hs.of_same rfl
  · intro v hv
    cases hv with
    | cell hrow hv => exact Or.inl (.cell hrow hv)
    | entry ht hd he => exact Or.inl (.entry ht hd he)
    | @field i inst' e hmem hi he =>
      have hmem : (s.instances.push inst)[i]? = some inst' := hmem
      rw [Array.getElem?_push] at hmem
      split at hmem
      · cases hmem
        exact Or.inr ((hinst _ he).mono hintact.le)
      · exact Or.inl (.field hmem hi he)
    | receiver hc hv => exact Or.inl (.receiver hc hv)
    | var hfr he hf => exact Or.inl (.var hfr he hf)
  · intro inst' hmem
    rcases Array.mem_push.mp hmem with hmem | rfl
    · exact h.typed inst' hmem
    · exact htype

theorem Veiled.newInstance (h : s.Veiled V) {t : TypeInfo} (ht : t.name.isEmpty = false) :
    s.Spares V (s.newInstance t).2 := by
  refine @Veiled.pushInstance V s h ⟨t, _⟩ ?_ ht
  have hfill : ∀ (fields : List Text) (table : Table Value), table.Every (s.Shows V) →
      (fields.foldl (fun acc f => acc.insert f Value.null) table).Every (s.Shows V) := by
    intro fields
    induction fields with
    | nil => exact fun _ htable => htable
    | cons f fields ih => exact fun _ htable => ih _ (htable.insert f ⟨trivial, trivial⟩)
  exact hfill t.fields _ .empty

theorem Veiled.newClosure (h : s.Veiled V) {cl : Closure}
    (hreceiver : ∀ r, cl.receiver = some r → s.Shows V r) : s.Spares V (s.newClosure cl).2 := by
  have hintact := Intact.newClosure s cl
  refine h.spares_of_frames hintact.le ?_ h.typed h.windows h.separate
    (fun v hv => hintact.content v (h.known v hv).2) (fun _ _ => rfl) rfl fun hs => hs.of_same rfl
  intro v hv
  cases hv with
  | cell hrow hv => exact Or.inl (.cell hrow hv)
  | entry ht hd he => exact Or.inl (.entry ht hd he)
  | field hinst hi he => exact Or.inl (.field hinst hi he)
  | receiver hc hv =>
    rcases Array.mem_push.mp hc with hc | rfl
    · exact Or.inl (.receiver hc hv)
    · exact Or.inr ((hreceiver v hv).mono hintact.le)
  | var hfr he hf => exact Or.inl (.var hfr he hf)

/-- A new frame does not hold the hidden binding. -/
theorem Veiled.newFrame (h : s.Veiled V) {fr : Frame} (hvars : fr.vars.Every (s.Shows V)) :
    s.Spares V (s.newFrame fr).2 := by
  have hintact := Intact.newFrame s fr
  refine h.spares hintact.le ?_ h.typed h.windows h.separate
    (fun v hv => hintact.content v (h.known v hv).2) (fun _ _ => rfl) ?_ fun hs => hs.of_same rfl
  · intro v hv
    cases hv with
    | cell hrow hv => exact Or.inl (.cell hrow hv)
    | entry ht hd he => exact Or.inl (.entry ht hd he)
    | field hinst hi he => exact Or.inl (.field hinst hi he)
    | receiver hc hv => exact Or.inl (.receiver hc hv)
    | @var f fr' e hfr he hf =>
      have hfr : (s.frames.push fr)[f]? = some fr' := hfr
      rw [Array.getElem?_push] at hfr
      split at hfr
      · cases hfr
        exact Or.inr ((hvars e he).mono hintact.le)
      · exact Or.inl (.var hfr he hf)
  · exact fun e he v => holds_congr (getElem?_push_old (h.slot e he))

/-- A binding that is not the hidden one. -/
theorem Veiled.define (h : s.Veiled V) (hv : s.Shows V v) {f : FrameId} {name : Text}
    (hname : V.slot ≠ some (f, name)) : s.Spares V (s.define f name v) := by
  have hle : s.Le (s.define f name v) :=
    ⟨Nat.le_refl _, Nat.le_refl _, Nat.le_refl _, Nat.le_refl _, Nat.le_refl _,
      Nat.le_of_eq Array.size_modify.symm⟩
  have hframe : ∀ g, (s.define f name v).frame? g =
      if f = g then (s.frame? g).map fun fr => { fr with vars := fr.vars.insert name v }
      else s.frame? g := fun g => Array.getElem?_modify
  refine h.spares hle ?_ h.typed h.windows h.separate (fun _ _ => content_define s f name v)
    (fun _ _ => rfl) ?_ fun hs => hs.of_same rfl
  · intro w hw
    cases hw with
    | cell hrow hv => exact Or.inl (.cell hrow hv)
    | entry ht hd he => exact Or.inl (.entry ht hd he)
    | field hinst hi he => exact Or.inl (.field hinst hi he)
    | receiver hc hv => exact Or.inl (.receiver hc hv)
    | @var g fr e hfr he hf =>
      rw [hframe] at hfr
      split at hfr
      · obtain ⟨fr', hfr', rfl⟩ := Option.map_eq_some_iff.mp hfr
        rcases Table.mem_update he with he | he
        · rw [he]
          exact Or.inr (hv.mono hle)
        · exact Or.inl (.var hfr' he hf)
      · exact Or.inl (.var hfr he hf)
  · rintro ⟨g, t⟩ hslot w
    unfold Holds
    rw [hframe]
    split
    · rename_i hfg
      have hne : name ≠ t := fun heq => hname (by rw [hslot, hfg, heq])
      constructor
      · rintro ⟨fr, hfr, hw⟩
        obtain ⟨fr', hfr', rfl⟩ := Option.map_eq_some_iff.mp hfr
        rw [Table.get?_insert, if_neg hne] at hw
        exact ⟨fr', hfr', hw⟩
      · rintro ⟨fr, hfr, hw⟩
        refine ⟨_, by rw [hfr]; rfl, ?_⟩
        rw [Table.get?_insert, if_neg hne]
        exact hw
    · exact Iff.rfl

theorem Veiled.setNearest (h : s.Veiled V) (hv : s.Shows V v) {name : Text} {f : FrameId}
    (hname : V.Misses s (some f) name) (hf : V.slot ≠ some (f, name)) : s.Spares V (s.setNearest f name v) := by
  unfold Store.setNearest
  split
  · rename_i owner hfound
    exact h.define hv fun hslot => hname owner hslot _ _ hfound
  · exact h.define hv hf

theorem Veiled.setOuter (h : s.Veiled V) (hv : s.Shows V v) {name : Text}
    (hname : ∀ g, V.slot ≠ some (g, name)) (f : FrameId) : s.Spares V (s.setOuter f name v) := by
  unfold Store.setOuter
  split
  · exact h.define hv (hname _)
  · split
    · exact h.define hv (hname _)
    · split <;> exact h.define hv (hname _)

theorem Veiled.modifyDict (h : s.Veiled V) {d : DictId} (hd : s.Shows V (.dict d)) {f : Table Value → Table Value}
    (hf : ∀ t : Table Value, t.Every (s.Shows V) → (f t).Every (s.Shows V))
    (hkeys : s.Distinct → ∀ t : Table Value, t.keys.Nodup → (f t).keys.Nodup) :
    s.Spares V (s.modifyDict d f) := by
  have hle : s.Le (s.modifyDict d f) :=
    ⟨Nat.le_refl _, Nat.le_refl _, Nat.le_of_eq Array.size_modify.symm, Nat.le_refl _, Nat.le_refl _,
      Nat.le_refl _⟩
  refine h.spares_of_frames hle ?_ h.typed h.windows h.separate ?_ (fun _ _ => rfl) rfl
    fun hs => hs.modifyDict d (hkeys hs)
  · intro w hw
    cases hw with
    | cell hrow hv => exact Or.inl (.cell hrow hv)
    | @entry d' t e ht hd' he =>
      have ht : (s.dicts.modify d f)[d']? = some t := ht
      rw [Array.getElem?_modify] at ht
      split at ht
      · obtain ⟨t', ht', rfl⟩ := Option.map_eq_some_iff.mp ht
        exact Or.inr ((hf t' (fun e he => h.seen e.2 (.entry ht' hd' he)) e he).mono hle)
      · exact Or.inl (.entry ht hd' he)
    | field hinst hi he => exact Or.inl (.field hinst hi he)
    | receiver hc hv => exact Or.inl (.receiver hc hv)
    | var hfr he hf => exact Or.inl (.var hfr he hf)
  · intro w hw
    refine content_congr (fun _ _ => rfl) ?_ (fun _ _ => rfl) (fun _ _ => rfl)
    rintro d' rfl
    exact getElem?_modify_ne fun heq => hd.shown (heq ▸ hw)

theorem Veiled.insertDict (h : s.Veiled V) {d : DictId} (hd : s.Shows V (.dict d))
    (hv : s.Shows V v) (key : Text) : s.Spares V (s.modifyDict d (·.insert key v)) :=
  h.modifyDict hd (fun _ ht => ht.insert key hv) fun _ _ ht => Table.nodup_insert ht key v

theorem Veiled.modifyInstance (h : s.Veiled V) {i : InstanceId} (hi : s.Shows V (.inst i)) {f : Instance → Instance}
    (hf : ∀ inst : Instance, inst.fields.Every (s.Shows V) → (f inst).fields.Every (s.Shows V))
    (htype : ∀ inst, (f inst).type = inst.type) :
    s.Spares V { s with instances := s.instances.modify i f } := by
  have hle : s.Le { s with instances := s.instances.modify i f } :=
    ⟨Nat.le_refl _, Nat.le_refl _, Nat.le_refl _, Nat.le_of_eq Array.size_modify.symm, Nat.le_refl _,
      Nat.le_refl _⟩
  refine h.spares_of_frames hle ?_ ?_ h.windows h.separate ?_ (fun _ _ => rfl) rfl fun hs => hs.of_same rfl
  · intro w hw
    cases hw with
    | cell hrow hv => exact Or.inl (.cell hrow hv)
    | entry ht hd he => exact Or.inl (.entry ht hd he)
    | @field i' inst e hinst hi' he =>
      have hinst : (s.instances.modify i f)[i']? = some inst := hinst
      rw [Array.getElem?_modify] at hinst
      split at hinst
      · obtain ⟨inst', hinst', rfl⟩ := Option.map_eq_some_iff.mp hinst
        exact Or.inr ((hf inst' (fun e he => h.seen e.2 (.field hinst' hi' he)) e he).mono hle)
      · exact Or.inl (.field hinst hi' he)
    | receiver hc hv => exact Or.inl (.receiver hc hv)
    | var hfr he hf => exact Or.inl (.var hfr he hf)
  · intro inst hinst
    rcases mem_modify hinst with hinst | ⟨inst', hinst', rfl⟩
    · exact h.typed inst hinst
    · rw [htype]
      exact h.typed inst' hinst'
  · intro w hw
    refine content_congr (fun _ _ => rfl) (fun _ _ => rfl) ?_ (fun _ _ => rfl)
    rintro i' rfl
    exact getElem?_modify_ne fun heq => hi.shown (heq ▸ hw)

theorem Veiled.setField (h : s.Veiled V) {i : InstanceId} (hi : s.Shows V (.inst i))
    (hv : s.Shows V v) (name : Text) : s.Spares V (s.setField i name v) :=
  h.modifyInstance hi (fun _ hfields => hfields.insert name hv) fun _ => rfl

/-- Work on a list that fills its cells with what is shown. -/
theorem Veiled.works (h : s.Veiled V) {l : ListId} (hl : s.Shows V (.list l)) (hwork : s.WorksOn l s')
    (hrest : s'.dicts = s.dicts ∧ s'.instances = s.instances ∧ s'.closures = s.closures ∧ s'.frames = s.frames)
    (hfills : s.PutsIn s' (s.Shows V)) : s.Spares V s' := by
  obtain ⟨hdicts, hinstances, hclosures, hframes⟩ := hrest
  have hle : s.Le s' :=
    ⟨hwork.rows, Nat.le_of_eq hwork.size.symm, Nat.le_of_eq (by rw [hdicts]), Nat.le_of_eq (by rw [hinstances]),
      Nat.le_of_eq (by rw [hclosures]), Nat.le_of_eq (by rw [hframes])⟩
  refine h.spares_of_frames hle ?_ (hinstances ▸ h.typed) (hwork.windows h.windows hl.has)
    (h.separate.works h.windows hwork hl.has) (fun w hw => ?_)
    (fun l' hl' => hwork.lists l' fun heq => hl.shown (heq ▸ hl')) hframes fun hs => hs.of_same hdicts
  · intro w hw
    cases hw with
    | cell hrow hw =>
      rcases hfills _ hrow _ hw with ⟨row', hrow', hw⟩ | hw
      · exact Or.inl (.cell hrow' hw)
      · exact Or.inr (hw.mono hle)
    | entry ht hd he => exact Or.inl (.entry (hdicts ▸ ht) hd he)
    | field hinst hi he => exact Or.inl (.field (hinstances ▸ hinst) hi he)
    | receiver hc hv => exact Or.inl (.receiver (hclosures ▸ hc) hv)
    | var hfr he hf =>
      have hfr := hfr
      unfold frame? at hfr
      rw [hframes] at hfr
      exact Or.inl (.var hfr he hf)
  · exact hwork.content h.windows h.separate hdicts hinstances hclosures hl.has (h.known w hw).2
      fun heq => hl.shown (heq ▸ hw)

theorem Veiled.listSet (h : s.Veiled V) {l : ListId} (hl : s.Shows V (.list l)) (hv : s.Shows V v)
    (i : Nat) : s.Spares V (s.listSet l i v) :=
  h.works hl ((WorksOn.refl s l).modify _) ⟨rfl, rfl, rfl, rfl⟩ ((putsIn_set s l i v).imp fun _ hu => hu ▸ hv)

theorem Veiled.nameValue (h : s.Veiled V) (hv : s.Shows V v) (name : Text) :
    s.Spares V (s.nameValue v name) := by
  cases v with
  | closure c =>
    refine h.spares_of_frames (nameValue_le s (.closure c) name) ?_ h.typed h.windows h.separate ?_
      (fun _ _ => rfl) rfl fun hs => hs.of_same rfl
    · intro w hw
      cases hw with
      | cell hrow hv => exact Or.inl (.cell hrow hv)
      | entry ht hd he => exact Or.inl (.entry ht hd he)
      | field hinst hi he => exact Or.inl (.field hinst hi he)
      | @receiver cl _ hc hv =>
        have hc : cl ∈ s.closures.modify c fun closure => { closure with name := name } := hc
        rcases mem_modify hc with hc | ⟨cl, hcl, rfl⟩
        · exact Or.inl (.receiver hc hv)
        · exact Or.inl (.receiver hcl hv)
      | var hfr he hf => exact Or.inl (.var hfr he hf)
    · intro w hw
      refine content_nameValue_ne (fun heq => ?_) name
      subst heq
      exact hv.shown hw
  | _ => exact h.refl

/-!
# Copies
-/

/-- A copy holds nothing that was not held before. -/
theorem Veiled.keeps_copy (h : s.Veiled V) (hv : s.Shows V v) (hw : (s.copy v).2.Keeps V w) :
    s.Shows V w := by
  cases v with
  | list l =>
    cases hw with
    | cell hrow hw =>
      rcases Array.mem_push.mp hrow with hrow | rfl
      · exact h.seen w (.cell hrow hw)
      · exact h.items l w hw
    | entry ht hd he => exact h.seen _ (.entry ht hd he)
    | field hinst hi he => exact h.seen _ (.field hinst hi he)
    | receiver hc hw => exact h.seen _ (.receiver hc hw)
    | var hfr he hf => exact h.seen _ (.var hfr he hf)
  | dict d =>
    cases hw with
    | cell hrow hw => exact h.seen w (.cell hrow hw)
    | @entry d' t e ht hd he =>
      have ht : (s.dicts.push (s.dict d))[d']? = some t := ht
      rw [Array.getElem?_push] at ht
      split at ht
      · cases ht
        exact h.dict hv.shown e he
      · exact h.seen _ (.entry ht hd he)
    | field hinst hi he => exact h.seen _ (.field hinst hi he)
    | receiver hc hw => exact h.seen _ (.receiver hc hw)
    | var hfr he hf => exact h.seen _ (.var hfr he hf)
  | closure c =>
    unfold Store.copy at hw
    cases hc : s.closure? c with
    | none =>
      simp only [hc] at hw
      exact h.seen w hw
    | some cl =>
      simp only [hc] at hw
      cases hw with
      | cell hrow hw => exact h.seen w (.cell hrow hw)
      | entry ht hd he => exact h.seen _ (.entry ht hd he)
      | field hinst hi he => exact h.seen _ (.field hinst hi he)
      | receiver hmem hw =>
        rcases Array.mem_push.mp hmem with hmem | rfl
        · exact h.seen _ (.receiver hmem hw)
        · exact h.closure hc hw
      | var hfr he hf => exact h.seen _ (.var hfr he hf)
  | inst i =>
    unfold Store.copy at hw
    cases hi : s.instance? i with
    | none =>
      simp only [hi] at hw
      exact h.seen w hw
    | some inst =>
      simp only [hi] at hw
      cases hw with
      | cell hrow hw => exact h.seen w (.cell hrow hw)
      | entry ht hd he => exact h.seen _ (.entry ht hd he)
      | @field i' inst' e hmem hi' he =>
        have hmem : (s.instances.push inst)[i']? = some inst' := hmem
        rw [Array.getElem?_push] at hmem
        split at hmem
        · cases hmem
          exact h.fields hv.shown hi _ he
        · exact h.seen _ (.field hmem hi' he)
      | receiver hc hw => exact h.seen _ (.receiver hc hw)
      | var hfr he hf => exact h.seen _ (.var hfr he hf)
  | _ => exact h.seen w hw

/-- A copy of what is shown is shown, and nothing hidden has changed. -/
theorem Veiled.copy (h : s.Veiled V) (hv : s.Shows V v) :
    s.Spares V (s.copy v).2 ∧ (s.copy v).2.Shows V (s.copy v).1 := by
  have hintact := Intact.copy h.windows v
  obtain ⟨hhas, hhandle, hnew, hself⟩ := copy_spec hv.has
  refine ⟨?_, hhas, ?_⟩
  · cases v with
    | list l => exact h.newListIn (h.items l) _
    | dict d => exact h.newDict (h.dict hv.shown) fun hs => hs.dict d
    | closure c =>
      unfold Store.copy
      cases hc : s.closure? c with
      | none => simp only [hc]; exact h.refl
      | some cl => simp only [hc]; exact h.newClosure fun r hr => h.closure hc hr
    | inst i =>
      unfold Store.copy
      cases hi : s.instance? i with
      | none => simp only [hi]; exact h.refl
      | some inst =>
        simp only [hi]
        exact h.pushInstance (h.fields hv.shown hi) (h.typed _ (Array.mem_of_getElem? hi))
    | _ => exact h.refl
  · cases hkind : v.isHandle with
    | false =>
      rw [hself hkind]
      exact hv.shown
    | true =>
      have hhidden := h.not_hidden (hnew hkind)
      rw [hkind] at hhandle
      generalize (s.copy v).1 = w at hhidden hhandle
      cases w <;> first | exact hhidden | cases hhandle

/-!
# Hiding
-/

variable {u : Value} {d : DictId} {r : FrameId}

theorem Shows.hide (hw : s.Shows V w) (hu : u.isHandle = true → ¬ s.Has u) :
    w.Shown (V.hide u).hidden := by
  obtain ⟨hhas, hshown⟩ := hw
  have hne : ∀ {v : Value}, s.Has v → ¬ (v = u ∧ u.isHandle = true) := by
    rintro v hv ⟨rfl, hhandle⟩
    exact hu hhandle hv
  induction w with
  | list | dict | closure | inst => exact fun h => h.elim hshown (hne hhas)
  | bound _ receiver ih => exact ih hhas hshown
  | _ => exact hshown

/-- A copy that was just made can be hidden. -/
theorem Veiled.hideCopy (h : s.Veiled V) (hv : s.Shows V v) :
    (s.copy v).2.Veiled (V.hide (s.copy v).1) := by
  obtain ⟨hhas, hhandle, hnew, -⟩ := copy_spec hv.has
  have hcopied := (h.copy hv).1.veiled
  have hle := Le.copy s v
  refine ⟨fun w hw => ?_, hcopied.typed, ?_, hcopied.windows, hcopied.separate, hcopied.slot⟩
  · have hw : (s.copy v).2.Keeps V w := by
      cases hw with
      | cell hrow hv => exact .cell hrow hv
      | entry ht hd he => exact .entry ht (fun hhidden => hd (Or.inl hhidden)) he
      | field hinst hi he => exact .field hinst (fun hhidden => hi (Or.inl hhidden)) he
      | receiver hc hv => exact .receiver hc hv
      | var hfr he hf => exact .var hfr he hf
    have hshows := h.keeps_copy hv hw
    exact ⟨hshows.has.mono hle, hshows.hide fun hu => hnew (hhandle ▸ hu)⟩
  · rintro w (hw | ⟨rfl, hw⟩)
    · exact hcopied.known w hw
    · exact ⟨hw, hhas⟩

/-- A hidden dict may hold anything. -/
theorem Veiled.modifyHidden (h : s.Veiled V) (hd : V.hidden (.dict d))
    (f : Table Value → Table Value) : (s.modifyDict d f).Veiled V := by
  have hle : s.Le (s.modifyDict d f) :=
    ⟨Nat.le_refl _, Nat.le_refl _, Nat.le_of_eq Array.size_modify.symm, Nat.le_refl _, Nat.le_refl _,
      Nat.le_refl _⟩
  refine ⟨fun w hw => ?_, h.typed, fun v hv => ⟨(h.known v hv).1, (h.known v hv).2.mono hle⟩, h.windows,
    h.separate, h.slot⟩
  refine (h.seen w ?_).mono hle
  cases hw with
  | cell hrow hv => exact .cell hrow hv
  | @entry d' t e ht hd' he =>
    have hne : d ≠ d' := fun heq => hd' (heq ▸ hd)
    have ht : (s.dicts.modify d f)[d']? = some t := ht
    rw [getElem?_modify_ne hne] at ht
    exact .entry ht hd' he
  | field hinst hi he => exact .field hinst hi he
  | receiver hc hv => exact .receiver hc hv
  | var hfr he hf => exact .var hfr he hf

/-- A hidden instance may hold anything. -/
theorem Veiled.setHiddenField (h : s.Veiled V) {i : InstanceId} (hi : V.hidden (.inst i)) (name : Text) (v : Value) :
    (s.setField i name v).Veiled V := by
  have hle : s.Le (s.setField i name v) :=
    ⟨Nat.le_refl _, Nat.le_refl _, Nat.le_refl _, Nat.le_of_eq Array.size_modify.symm, Nat.le_refl _,
      Nat.le_refl _⟩
  refine ⟨fun w hw => ?_, fun inst hinst => ?_, fun v hv => ⟨(h.known v hv).1, (h.known v hv).2.mono hle⟩,
    h.windows, h.separate, h.slot⟩
  · refine (h.seen w ?_).mono hle
    cases hw with
    | cell hrow hv => exact .cell hrow hv
    | entry ht hd he => exact .entry ht hd he
    | @field i' inst e hinst hi' he =>
      have hne : i ≠ i' := fun heq => hi' (heq ▸ hi)
      have hinst : (s.instances.modify i _)[i']? = some inst := hinst
      rw [getElem?_modify_ne hne] at hinst
      exact .field hinst hi' he
    | receiver hc hv => exact .receiver hc hv
    | var hfr he hf => exact .var hfr he hf
  · have hinst : inst ∈ s.instances.modify i fun inst => { inst with fields := inst.fields.insert name v } := hinst
    rcases mem_modify hinst with hinst | ⟨inst', hinst', rfl⟩
    · exact h.typed inst hinst
    · exact h.typed inst' hinst'

/-- An instance that was just made can be hidden, whatever it holds. -/
theorem Veiled.pushHidden (h : s.Veiled V) {inst : Instance} (htype : inst.type.name.isEmpty = false) :
    Veiled (V.hide (.inst s.instances.size)) { s with instances := s.instances.push inst } := by
  have hintact := Intact.pushInstance s inst
  have hfresh : ¬ s.Has (.inst s.instances.size) := Nat.lt_irrefl _
  refine ⟨fun w hw => ?_, fun inst' hmem => ?_, ?_, h.windows, h.separate, h.slot⟩
  · have hw : s.Keeps V w := by
      cases hw with
      | cell hrow hv => exact .cell hrow hv
      | entry ht hd he => exact .entry ht (fun hhidden => hd (Or.inl hhidden)) he
      | @field i inst' e hmem hi he =>
        have hne : i ≠ s.instances.size := fun heq => hi (Or.inr ⟨congrArg Value.inst heq, rfl⟩)
        have hmem : (s.instances.push inst)[i]? = some inst' := hmem
        rw [Array.getElem?_push, if_neg hne] at hmem
        exact .field hmem (fun hhidden => hi (Or.inl hhidden)) he
      | receiver hc hv => exact .receiver hc hv
      | var hfr he hf => exact .var hfr he hf
    exact ⟨(h.seen w hw).has.mono hintact.le, (h.seen w hw).hide fun _ => hfresh⟩
  · rcases Array.mem_push.mp hmem with hmem | rfl
    · exact h.typed inst' hmem
    · exact htype
  · rintro w (hw | ⟨rfl, hw⟩)
    · exact ⟨(h.known w hw).1, (h.known w hw).2.mono hintact.le⟩
    · exact ⟨hw, size_lt_push _ _⟩

/-- The hidden name may be bound to anything. -/
theorem Veiled.defineHidden (h : s.Veiled V) {name : Text} (hr : V.slot = some (r, name)) (v : Value) :
    (s.define r name v).Veiled V := by
  have hle : s.Le (s.define r name v) :=
    ⟨Nat.le_refl _, Nat.le_refl _, Nat.le_refl _, Nat.le_refl _, Nat.le_refl _,
      Nat.le_of_eq Array.size_modify.symm⟩
  refine ⟨fun w hw => ?_, h.typed, h.known, h.windows, h.separate,
    fun e he => Nat.lt_of_lt_of_le (h.slot e he) hle.frames⟩
  refine (h.seen w ?_).mono hle
  cases hw with
  | cell hrow hv => exact .cell hrow hv
  | entry ht hd he => exact .entry ht hd he
  | field hinst hi he => exact .field hinst hi he
  | receiver hc hv => exact .receiver hc hv
  | @var g fr e hfr he hf =>
    have hfr : (s.frames.modify r fun fr => { fr with vars := fr.vars.insert name v })[g]? = some fr := hfr
    rw [Array.getElem?_modify] at hfr
    split at hfr
    · rename_i hrg
      obtain ⟨fr', hfr', rfl⟩ := Option.map_eq_some_iff.mp hfr
      exact .var hfr' (Table.mem_update_ne he fun heq => hf (by rw [hr, hrg, heq])) hf
    · exact .var hfr he hf

/-- A binding may be hidden where none is. -/
theorem Veiled.hideSlot {V' : Veil} (h : s.Veiled V) (hnone : V.slot = none) (hhidden : V'.hidden = V.hidden)
    (hslot : ∀ e, V'.slot = some e → e.1 < s.frames.size) : s.Veiled V' := by
  refine ⟨fun w hw => ?_, h.typed, fun w hw => h.known w (hhidden ▸ hw), h.windows, h.separate, hslot⟩
  have hw : s.Keeps V w := by
    cases hw with
    | cell hrow hv => exact .cell hrow hv
    | entry ht hd he => exact .entry ht (hhidden ▸ hd) he
    | field hinst hi he => exact .field hinst (hhidden ▸ hi) he
    | receiver hc hv => exact .receiver hc hv
    | var hfr he => exact .var hfr he (by rw [hnone]; exact (Option.some_ne_none _).symm)
  obtain ⟨hhas, hshown⟩ := h.seen w hw
  exact ⟨hhas, hhidden ▸ hshown⟩

/-- The root frame of a run is new: the hidden name is not bound in it. -/
theorem Veiled.newRoot (h : s.Veiled .clear) (name : Text) :
    (s.newRoot name).2.Veiled (.exports s.frames.size) := by
  have hroot := (@Veiled.newFrame _ s h ⟨Table.empty, none, .boundary name none none Text.empty⟩ .empty).veiled
  refine hroot.hideSlot rfl rfl ?_
  rintro _ ⟨⟩
  exact size_lt_push _ _

theorem veiled_empty : empty.Veiled .clear where
  seen v hv := by
    cases hv with
    | cell h => exact absurd h (Array.not_mem_empty _)
    | entry h => cases h
    | field h => cases h
    | receiver h => exact absurd h (Array.not_mem_empty _)
    | var h => cases h
  typed _ h := absurd h (Array.not_mem_empty _)
  known _ h := h.elim
  windows _ h := absurd h (Array.not_mem_empty _)
  separate l l' w w' h := by cases h
  slot _ h := by cases h

end
end Store
end ScriptEngine
