import ScriptEngine.Proofs.Store.Growth

/-!
# Clean values

A value is clean if it is not the marker of assignments and refers to closures that exist and to
known natives. A store is clean if every value in it is. What the engine does with clean values gives clean
values again.
-/

namespace ScriptEngine

namespace Table

variable {α : Type} {P Q : α → Prop} {t : Table α}

/-- Every value bound in the table has the property. -/
def All (P : α → Prop) (t : Table α) : Prop :=
  ∀ k v, t.get? k = some v → P v

theorem All.imp (h : t.All P) (himp : ∀ v, P v → Q v) : t.All Q :=
  fun k v hk => himp v (h k v hk)

theorem All.empty : (Table.empty : Table α).All P := by
  intro k v h
  cases h

theorem All.insert (h : t.All P) (key : Text) {value : α} (hv : P value) :
    (t.insert key value).All P := by
  intro k v hk
  rw [get?_insert] at hk
  split at hk
  · cases hk
    exact hv
  · exact h k v hk

theorem All.insertAll (h : t.All P) {pairs : List (Text × α)} (hpairs : ∀ p ∈ pairs, P p.2) :
    (t.insertAll pairs).All P := by
  induction pairs generalizing t with
  | nil => exact h
  | cons p rest ih =>
    exact ih (h.insert p.1 (hpairs p List.mem_cons_self))
      fun q hq => hpairs q (List.mem_cons_of_mem p hq)

/-- Every value that the table holds has the property. -/
def Every (P : α → Prop) (t : Table α) : Prop :=
  ∀ e ∈ t.entries, P e.2

theorem Every.imp (h : t.Every P) (himp : ∀ v, P v → Q v) : t.Every Q :=
  fun e he => himp e.2 (h e he)

theorem Every.empty : (Table.empty : Table α).Every P :=
  fun _ he => absurd he List.not_mem_nil

theorem mem_of_lookup {key : Text} {v : α} {entries : List (Text × α)}
    (h : lookup key entries = some v) : (key, v) ∈ entries := by
  induction entries with
  | nil => cases h
  | cons e rest ih =>
    obtain ⟨k, w⟩ := e
    unfold lookup at h
    split at h
    · rename_i hk
      cases h
      rw [hk]
      exact List.mem_cons_self
    · exact List.mem_cons_of_mem _ (ih h)

theorem Every.get? (h : t.Every P) {key : Text} {v : α} (hv : t.get? key = some v) : P v :=
  h (key, v) (mem_of_lookup hv)

theorem mem_update {key : Text} {v : α} {e : Text × α} {entries : List (Text × α)}
    (h : e ∈ update key v entries) : e.2 = v ∨ e ∈ entries := by
  induction entries with
  | nil =>
    rw [List.mem_singleton.mp h]
    exact Or.inl rfl
  | cons e' rest ih =>
    obtain ⟨k, w⟩ := e'
    unfold update at h
    split at h
    · rcases List.mem_cons.mp h with rfl | h
      · exact Or.inl rfl
      · exact Or.inr (List.mem_cons_of_mem _ h)
    · rcases List.mem_cons.mp h with rfl | h
      · exact Or.inr List.mem_cons_self
      · rcases ih h with h | h
        · exact Or.inl h
        · exact Or.inr (List.mem_cons_of_mem _ h)

theorem Every.insert (h : t.Every P) (key : Text) {v : α} (hv : P v) : (t.insert key v).Every P := by
  intro e he
  rcases mem_update he with he | he
  · rw [he]
    exact hv
  · exact h e he

theorem Every.insertAll (h : t.Every P) {pairs : List (Text × α)} (hpairs : ∀ e ∈ pairs, P e.2) :
    (t.insertAll pairs).Every P := by
  induction pairs generalizing t with
  | nil => exact h
  | cons e rest ih =>
    exact ih (h.insert e.1 (hpairs e List.mem_cons_self))
      fun e' he' => hpairs e' (List.mem_cons_of_mem e he')

/-- The values that lookups in the table find have the property, and if it is strict, so has every value. -/
structure Holds (strict : Prop) (P : α → Prop) (t : Table α) : Prop where
  all : t.All P
  every : strict → t.Every P

theorem Holds.of_every {strict : Prop} (h : t.Every P) : t.Holds strict P :=
  ⟨fun _ _ hk => h.get? hk, fun _ => h⟩

theorem Holds.imp {strict : Prop} (h : t.Holds strict P) (himp : ∀ v, P v → Q v) : t.Holds strict Q :=
  ⟨h.all.imp himp, fun hs => (h.every hs).imp himp⟩

theorem Holds.insert {strict : Prop} (h : t.Holds strict P) (key : Text) {v : α} (hv : P v) :
    (t.insert key v).Holds strict P :=
  ⟨h.all.insert key hv, fun hs => (h.every hs).insert key hv⟩

end Table

namespace Value

/-- The value is no marker, and what it calls is known: one of the first `closures` closures, or one
of the `natives`. -/
def Clean (closures : Nat) (natives : NativeInfo → Prop) : Value → Prop
  | .empty => False
  | .closure c => c < closures
  | .native n => natives n
  | .bound n receiver => natives n ∧ receiver.Clean closures natives
  | _ => True

theorem Clean.mono {closures closures' : Nat} {natives : NativeInfo → Prop} (hle : closures ≤ closures') :
    ∀ {v : Value}, v.Clean closures natives → v.Clean closures' natives
  | .closure c, h => Nat.lt_of_lt_of_le (show c < closures from h) hle
  | .bound _ _, h => ⟨h.1, Clean.mono hle h.2⟩
  | .native _, h => h
  | .null, _ | .number _, _ | .text _, _ | .boolean _, _ | .type _, _ | .list _, _ | .dict _, _
  | .inst _, _ => trivial

end Value

namespace Store

variable {s s' : Store} {n : NativeInfo → Prop} {v : Value}

/-- The value is clean with respect to the closures of the store. -/
def Admits (s : Store) (n : NativeInfo → Prop) (v : Value) : Prop :=
  v.Clean s.closures.size n

/-- Every value in the store is clean. -/
structure Clean (n : NativeInfo → Prop) (s : Store) : Prop where
  cells : ∀ row ∈ s.rows, ∀ v ∈ row.cells, s.Admits n v
  dicts : ∀ t ∈ s.dicts, t.All (s.Admits n)
  instances : ∀ i ∈ s.instances, i.fields.All (s.Admits n)
  receivers : ∀ c ∈ s.closures, ∀ r, c.receiver = some r → s.Admits n r
  frames : ∀ f ∈ s.frames, f.vars.All (s.Admits n)

theorem Admits.mono (h : s.Admits n v) (hle : s.closures.size ≤ s'.closures.size) :
    s'.Admits n v :=
  Value.Clean.mono hle h

theorem Admits.grows (h : s.Admits n v) (hgrows : s.Grows s') : s'.Admits n v :=
  h.mono hgrows.toExtends.size_closures

theorem mem_modify {α : Type} {a : Array α} {i : Nat} {f : α → α} {x : α}
    (h : x ∈ a.modify i f) : x ∈ a ∨ ∃ y ∈ a, x = f y := by
  obtain ⟨j, hj⟩ := Array.mem_iff_getElem?.mp h
  rw [Array.getElem?_modify] at hj
  split at hj
  · obtain ⟨y, hy, rfl⟩ := Option.map_eq_some_iff.mp hj
    exact Or.inr ⟨y, Array.mem_of_getElem? hy, rfl⟩
  · exact Or.inl (Array.mem_of_getElem? hj)

theorem clean_empty (n : NativeInfo → Prop) : empty.Clean n :=
  ⟨fun _ h => absurd h (Array.not_mem_empty _), fun _ h => absurd h (Array.not_mem_empty _),
    fun _ h => absurd h (Array.not_mem_empty _), fun _ h => absurd h (Array.not_mem_empty _),
    fun _ h => absurd h (Array.not_mem_empty _)⟩

/-!
# Reading
-/

theorem Clean.dict (h : s.Clean n) (d : DictId) : (s.dict d).All (s.Admits n) := by
  unfold Store.dict
  cases hd : s.dicts[d]? with
  | none => exact Table.All.empty
  | some t => exact h.dicts t (Array.mem_of_getElem? hd)

theorem Clean.field (h : s.Clean n) {i : InstanceId} {k : Text} (hv : s.field? i k = some v) :
    s.Admits n v := by
  unfold field? at hv
  split at hv
  · rename_i inst hinst
    exact h.instances inst (Array.mem_of_getElem? hinst) k v hv
  · cases hv

theorem Clean.rowCells (h : s.Clean n) (r : Nat) : ∀ v ∈ s.rowCells r, s.Admits n v := by
  intro v hv
  unfold Store.rowCells at hv
  split at hv
  · rename_i row hrow
    exact h.cells row (Array.mem_of_getElem? hrow) v hv
  · simp at hv

theorem Clean.listGet (h : s.Clean n) (l : ListId) (i : Nat) : s.Admits n (s.listGet l i) := by
  unfold Store.listGet rowGet
  cases hv : (s.rowCells (s.window l).row)[i]? with
  | none => trivial
  | some v => exact h.rowCells _ v (Array.mem_of_getElem? hv)

theorem Clean.items (h : s.Clean n) (l : ListId) : ∀ v ∈ s.items l, s.Admits n v := by
  intro v hv
  unfold Store.items at hv
  dsimp only at hv
  split at hv
  · exact h.rowCells _ v hv
  · refine h.rowCells (s.window l).row v ?_
    rw [Array.mem_iff_getElem?] at hv ⊢
    obtain ⟨i, hi⟩ := hv
    rw [Array.getElem?_extract] at hi
    split at hi
    · exact ⟨_, hi⟩
    · cases hi

theorem Clean.lookup (h : s.Clean n) {name : Text} {shallow : Bool} {f : Option FrameId}
    {owner : FrameId} (hv : s.lookup f name shallow = some (v, owner)) : s.Admits n v := by
  have hwalk : ∀ fuel f, s.lookupFrom name shallow fuel f = some (v, owner) → s.Admits n v := by
    intro fuel
    induction fuel with
    | zero =>
      intro f hf
      cases f <;> cases hf
    | succ fuel ih =>
      intro f hf
      cases f with
      | none => cases hf
      | some f =>
        rw [lookupFrom] at hf
        split at hf
        · cases hf
        rename_i fr hfr
        split at hf
        · rename_i v' hv'
          cases hf
          exact h.frames fr (Array.mem_of_getElem? hfr) name v hv'
        · split at hf
          · cases hf
          · exact ih _ hf
  exact hwalk _ f hv

/-!
# Changing
-/

theorem Clean.define (h : s.Clean n) (f : FrameId) (name : Text) (hv : s.Admits n v) :
    (s.define f name v).Clean n where
  cells := h.cells
  dicts := h.dicts
  instances := h.instances
  receivers := h.receivers
  frames fr hfr := by
    have hfr : fr ∈ s.frames.modify f fun fr => { fr with vars := fr.vars.insert name v } := hfr
    rcases mem_modify hfr with hfr | ⟨fr', hfr', rfl⟩
    · exact h.frames fr hfr
    · exact (h.frames fr' hfr').insert name hv

theorem Clean.setNearest (h : s.Clean n) (f : FrameId) (name : Text) (hv : s.Admits n v) :
    (s.setNearest f name v).Clean n := by
  unfold Store.setNearest
  split
  · exact h.define _ name hv
  · exact h.define f name hv

theorem Clean.setOuter (h : s.Clean n) (f : FrameId) (name : Text) (hv : s.Admits n v) :
    (s.setOuter f name v).Clean n := by
  unfold Store.setOuter
  split
  · exact h.define f name hv
  split
  · exact h.define _ name hv
  split
  · exact h.define _ name hv
  · exact h.define _ name hv

theorem Clean.setField (h : s.Clean n) (i : InstanceId) (name : Text) (hv : s.Admits n v) :
    (s.setField i name v).Clean n where
  cells := h.cells
  dicts := h.dicts
  instances inst hinst := by
    have hinst : inst ∈ s.instances.modify i fun inst =>
      { inst with fields := inst.fields.insert name v } := hinst
    rcases mem_modify hinst with hinst | ⟨inst', hinst', rfl⟩
    · exact h.instances inst hinst
    · exact (h.instances inst' hinst').insert name hv
  receivers := h.receivers
  frames := h.frames

theorem Clean.insertDict (h : s.Clean n) (d : DictId) (key : Text) (hv : s.Admits n v) :
    (s.modifyDict d (·.insert key v)).Clean n where
  cells := h.cells
  dicts t ht := by
    have ht : t ∈ s.dicts.modify d (·.insert key v) := ht
    rcases mem_modify ht with ht | ⟨t', ht', rfl⟩
    · exact h.dicts t ht
    · exact (h.dicts t' ht').insert key hv
  instances := h.instances
  receivers := h.receivers
  frames := h.frames

theorem Clean.listSet (h : s.Clean n) (l : ListId) (i : Nat) (hv : s.Admits n v) :
    (s.listSet l i v).Clean n where
  cells row hrow := by
    have hrow : row ∈ s.rows.modify (s.window l).row (Row.write · i v) := hrow
    rcases mem_modify hrow with hrow | ⟨row', hrow', rfl⟩
    · exact h.cells row hrow
    · intro w hw
      unfold Row.write at hw
      split at hw
      · rcases Array.mem_or_eq_of_mem_setIfInBounds hw with hw | rfl
        · exact h.cells row' hrow' w hw
        · exact hv
      · rcases Array.mem_push.mp hw with hw | rfl
        · exact h.cells row' hrow' w hw
        · exact hv
  dicts := h.dicts
  instances := h.instances
  receivers := h.receivers
  frames := h.frames

theorem Clean.newListIn (h : s.Clean n) {items : Array Value} (hitems : ∀ v ∈ items, s.Admits n v)
    (capacity : Nat) : (s.newListIn items capacity).2.Clean n where
  cells row hrow := by
    rcases Array.mem_push.mp hrow with hrow | rfl
    · exact h.cells row hrow
    · exact hitems
  dicts := h.dicts
  instances := h.instances
  receivers := h.receivers
  frames := h.frames

theorem Clean.newDict (h : s.Clean n) {entries : Table Value} (hentries : entries.All (s.Admits n)) :
    (s.newDict entries).2.Clean n where
  cells := h.cells
  dicts t ht := by
    rcases Array.mem_push.mp ht with ht | rfl
    · exact h.dicts t ht
    · exact hentries
  instances := h.instances
  receivers := h.receivers
  frames := h.frames

theorem Clean.pushInstance (h : s.Clean n) {inst : Instance}
    (hinst : inst.fields.All (s.Admits n)) :
    Clean n { s with instances := s.instances.push inst } where
  cells := h.cells
  dicts := h.dicts
  instances i hi := by
    rcases Array.mem_push.mp hi with hi | rfl
    · exact h.instances i hi
    · exact hinst
  receivers := h.receivers
  frames := h.frames

theorem Clean.newInstance (h : s.Clean n) (t : TypeInfo) : (s.newInstance t).2.Clean n := by
  refine h.pushInstance ?_
  have hnull : ∀ (fields : List Text) (acc : Table Value), acc.All (s.Admits n) →
      (fields.foldl (fun acc f => acc.insert f Value.null) acc).All (s.Admits n) := by
    intro fields
    induction fields with
    | nil => exact fun acc hacc => hacc
    | cons f rest ih => exact fun acc hacc => ih _ (hacc.insert f trivial)
  exact hnull t.fields Table.empty Table.All.empty

theorem Clean.newClosure (h : s.Clean n) {cl : Closure}
    (hcl : ∀ r, cl.receiver = some r → s.Admits n r) : (s.newClosure cl).2.Clean n := by
  have hle : s.closures.size ≤ (s.newClosure cl).2.closures.size := by
    show s.closures.size ≤ (s.closures.push cl).size
    rw [Array.size_push]
    exact Nat.le_succ _
  refine ⟨?_, ?_, ?_, ?_, ?_⟩
  · exact fun row hrow v hv => (h.cells row hrow v hv).mono hle
  · exact fun t ht => (h.dicts t ht).imp fun v hv => hv.mono hle
  · exact fun i hi => (h.instances i hi).imp fun v hv => hv.mono hle
  · intro c hc r hr
    rcases Array.mem_push.mp hc with hc | rfl
    · exact (h.receivers c hc r hr).mono hle
    · exact (hcl r hr).mono hle
  · exact fun f hf => (h.frames f hf).imp fun v hv => hv.mono hle

/-- The new closure itself is clean. -/
theorem admits_newClosure (s : Store) (cl : Closure) (n : NativeInfo → Prop) :
    (s.newClosure cl).2.Admits n (.closure (s.newClosure cl).1) := by
  show s.closures.size < (s.closures.push cl).size
  rw [Array.size_push]
  exact Nat.lt_succ_self _

theorem Clean.nameClosure (h : s.Clean n) (c : ClosureId) (name : Text) :
    Clean n { s with closures := s.closures.modify c fun cl => { cl with name := name } } := by
  have hle : s.closures.size ≤ (s.closures.modify c fun cl => { cl with name := name }).size :=
    Nat.le_of_eq Array.size_modify.symm
  refine ⟨?_, ?_, ?_, ?_, ?_⟩
  · exact fun row hrow v hv => (h.cells row hrow v hv).mono hle
  · exact fun t ht => (h.dicts t ht).imp fun v hv => hv.mono hle
  · exact fun i hi => (h.instances i hi).imp fun v hv => hv.mono hle
  · intro cl hcl r hr
    have hcl : cl ∈ s.closures.modify c fun cl => { cl with name := name } := hcl
    rcases mem_modify hcl with hcl | ⟨cl', hcl', rfl⟩
    · exact (h.receivers cl hcl r hr).mono hle
    · exact (h.receivers cl' hcl' r hr).mono hle
  · exact fun f hf => (h.frames f hf).imp fun v hv => hv.mono hle

theorem Clean.newFrame (h : s.Clean n) {fr : Frame} (hfr : fr.vars.All (s.Admits n)) :
    (s.newFrame fr).2.Clean n where
  cells := h.cells
  dicts := h.dicts
  instances := h.instances
  receivers := h.receivers
  frames f hf := by
    rcases Array.mem_push.mp hf with hf | rfl
    · exact h.frames f hf
    · exact hfr

theorem Clean.copy (h : s.Clean n) (hv : s.Admits n v) :
    (s.copy v).2.Clean n ∧ (s.copy v).2.Admits n (s.copy v).1 := by
  cases v with
  | list l => exact ⟨h.newListIn (h.items l) _, trivial⟩
  | dict d => exact ⟨h.newDict (h.dict d), trivial⟩
  | closure c =>
    unfold Store.copy
    cases hc : s.closure? c with
    | none =>
      simp only [hc]
      exact ⟨h, hv⟩
    | some cl =>
      simp only [hc]
      exact ⟨h.newClosure (h.receivers cl (Array.mem_of_getElem? hc)), admits_newClosure s cl n⟩
  | inst i =>
    unfold Store.copy
    cases hi : s.instance? i with
    | none =>
      simp only [hi]
      exact ⟨h, hv⟩
    | some inst =>
      simp only [hi]
      exact ⟨h.pushInstance (h.instances inst (Array.mem_of_getElem? hi)), trivial⟩
  | _ => exact ⟨h, hv⟩

/-!
# Neat stores

A lookup finds the first binding of a key only. Where all values that tables hold matter, none may be unclean.
-/

/-- The store is clean, and if it is strict, dicts and instances hold clean values only. -/
structure Neat (strict : Prop) (n : NativeInfo → Prop) (s : Store) : Prop extends s.Clean n where
  entries : strict → ∀ t ∈ s.dicts, t.Every (s.Admits n)
  fields : strict → ∀ i ∈ s.instances, i.fields.Every (s.Admits n)

namespace Neat

variable {strict : Prop}

theorem of_clean (h : s.Clean n) : s.Neat False n :=
  ⟨h, False.elim, False.elim⟩

theorem empty (strict : Prop) (n : NativeInfo → Prop) : Store.empty.Neat strict n :=
  ⟨clean_empty n, fun _ _ h => absurd h (Array.not_mem_empty _), fun _ _ h => absurd h (Array.not_mem_empty _)⟩

theorem table (h : s.Neat strict n) (d : DictId) : (s.dict d).Holds strict (s.Admits n) := by
  refine ⟨h.dict d, fun hs => ?_⟩
  unfold Store.dict
  cases hd : s.dicts[d]? with
  | none => exact Table.Every.empty
  | some t => exact h.entries hs t (Array.mem_of_getElem? hd)

theorem record (h : s.Neat strict n) {i : Instance} (hi : i ∈ s.instances) :
    i.fields.Holds strict (s.Admits n) :=
  ⟨h.instances i hi, fun hs => h.fields hs i hi⟩

/-- What dicts and instances hold stays as it is. -/
theorem of_same (h : s.Neat strict n) (hclean : s'.Clean n) (hdicts : s'.dicts = s.dicts)
    (hinstances : s'.instances = s.instances) (hle : s.closures.size ≤ s'.closures.size) : s'.Neat strict n :=
  ⟨hclean, fun hs t ht => (h.entries hs t (hdicts ▸ ht)).imp fun _ hv => hv.mono hle,
    fun hs i hi => (h.fields hs i (hinstances ▸ hi)).imp fun _ hv => hv.mono hle⟩

theorem define (h : s.Neat strict n) (f : FrameId) (name : Text) (hv : s.Admits n v) :
    (s.define f name v).Neat strict n :=
  h.of_same (h.toClean.define f name hv) rfl rfl (Nat.le_refl _)

theorem setNearest (h : s.Neat strict n) (f : FrameId) (name : Text) (hv : s.Admits n v) :
    (s.setNearest f name v).Neat strict n := by
  unfold Store.setNearest
  split
  · exact h.define _ name hv
  · exact h.define f name hv

theorem setOuter (h : s.Neat strict n) (f : FrameId) (name : Text) (hv : s.Admits n v) :
    (s.setOuter f name v).Neat strict n := by
  unfold Store.setOuter
  split
  · exact h.define f name hv
  split
  · exact h.define _ name hv
  split
  · exact h.define _ name hv
  · exact h.define _ name hv

theorem setField (h : s.Neat strict n) (i : InstanceId) (name : Text) (hv : s.Admits n v) :
    (s.setField i name v).Neat strict n where
  toClean := h.toClean.setField i name hv
  entries := h.entries
  fields hs inst hinst := by
    have hinst : inst ∈ s.instances.modify i fun inst =>
      { inst with fields := inst.fields.insert name v } := hinst
    rcases mem_modify hinst with hinst | ⟨inst', hinst', rfl⟩
    · exact h.fields hs inst hinst
    · exact (h.fields hs inst' hinst').insert name hv

theorem insertDict (h : s.Neat strict n) (d : DictId) (key : Text) (hv : s.Admits n v) :
    (s.modifyDict d (·.insert key v)).Neat strict n where
  toClean := h.toClean.insertDict d key hv
  entries hs t ht := by
    have ht : t ∈ s.dicts.modify d (·.insert key v) := ht
    rcases mem_modify ht with ht | ⟨t', ht', rfl⟩
    · exact h.entries hs t ht
    · exact (h.entries hs t' ht').insert key hv
  fields := h.fields

theorem listSet (h : s.Neat strict n) (l : ListId) (i : Nat) (hv : s.Admits n v) :
    (s.listSet l i v).Neat strict n :=
  h.of_same (h.toClean.listSet l i hv) rfl rfl (Nat.le_refl _)

theorem newListIn (h : s.Neat strict n) {items : Array Value} (hitems : ∀ v ∈ items, s.Admits n v)
    (capacity : Nat) : (s.newListIn items capacity).2.Neat strict n :=
  h.of_same (h.toClean.newListIn hitems capacity) rfl rfl (Nat.le_refl _)

theorem newDict (h : s.Neat strict n) {entries : Table Value} (hentries : entries.Holds strict (s.Admits n)) :
    (s.newDict entries).2.Neat strict n where
  toClean := h.toClean.newDict hentries.all
  entries hs t ht := by
    rcases Array.mem_push.mp ht with ht | rfl
    · exact h.entries hs t ht
    · exact hentries.every hs
  fields := h.fields

theorem pushInstance (h : s.Neat strict n) {inst : Instance}
    (hinst : inst.fields.Holds strict (s.Admits n)) :
    Neat strict n { s with instances := s.instances.push inst } where
  toClean := h.toClean.pushInstance hinst.all
  entries := h.entries
  fields hs i hi := by
    rcases Array.mem_push.mp hi with hi | rfl
    · exact h.fields hs i hi
    · exact hinst.every hs

theorem newInstance (h : s.Neat strict n) (t : TypeInfo) : (s.newInstance t).2.Neat strict n := by
  refine h.pushInstance (.of_every ?_)
  have hnull : ∀ (fields : List Text) (acc : Table Value), acc.Every (s.Admits n) →
      (fields.foldl (fun acc f => acc.insert f Value.null) acc).Every (s.Admits n) := by
    intro fields
    induction fields with
    | nil => exact fun acc hacc => hacc
    | cons f rest ih => exact fun acc hacc => ih _ (hacc.insert f trivial)
  exact hnull t.fields Table.empty Table.Every.empty

theorem newClosure (h : s.Neat strict n) {cl : Closure}
    (hcl : ∀ r, cl.receiver = some r → s.Admits n r) : (s.newClosure cl).2.Neat strict n := by
  refine h.of_same (h.toClean.newClosure hcl) rfl rfl ?_
  show s.closures.size ≤ (s.closures.push cl).size
  rw [Array.size_push]
  exact Nat.le_succ _

theorem nameClosure (h : s.Neat strict n) (c : ClosureId) (name : Text) :
    Neat strict n { s with closures := s.closures.modify c fun cl => { cl with name := name } } :=
  h.of_same (h.toClean.nameClosure c name) rfl rfl (Nat.le_of_eq Array.size_modify.symm)

theorem newFrame (h : s.Neat strict n) {fr : Frame} (hfr : fr.vars.All (s.Admits n)) :
    (s.newFrame fr).2.Neat strict n :=
  h.of_same (h.toClean.newFrame hfr) rfl rfl (Nat.le_refl _)

theorem copy (h : s.Neat strict n) (hv : s.Admits n v) :
    (s.copy v).2.Neat strict n ∧ (s.copy v).2.Admits n (s.copy v).1 := by
  refine ⟨?_, (h.toClean.copy hv).2⟩
  cases v with
  | list l => exact h.newListIn (h.items l) _
  | dict d => exact h.newDict (h.table d)
  | closure c =>
    unfold Store.copy
    cases hc : s.closure? c with
    | none =>
      simp only [hc]
      exact h
    | some cl =>
      simp only [hc]
      exact h.newClosure (h.receivers cl (Array.mem_of_getElem? hc))
  | inst i =>
    unfold Store.copy
    cases hi : s.instance? i with
    | none =>
      simp only [hi]
      exact h
    | some inst =>
      simp only [hi]
      exact h.pushInstance (h.record (Array.mem_of_getElem? hi))
  | _ => exact h

end Neat

end Store
end ScriptEngine
