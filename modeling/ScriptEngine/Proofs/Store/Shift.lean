import ScriptEngine.Machine
import ScriptEngine.Proofs.Store.Printing
import ScriptEngine.Proofs.Store.Scope

/-!
# Stores on top of stores

What a run builds may come after everything that earlier runs have built: then all its objects have
other numbers, shifted by as many as there were before. Work on values does not notice. It does the
same in the shifted store, with shifted values, and leaves what came before alone.
-/

namespace ScriptEngine

/-!
# Arrays
-/

section
variable {α : Type} {a b : Array α} {f g g' : α → α} {x : α} {i : Nat}

/-- An array behind another one, with its elements changed. -/
def onto (a : Array α) (f : α → α) (b : Array α) : Array α :=
  a ++ b.map f

theorem size_onto : (onto a f b).size = a.size + b.size := by
  rw [onto, Array.size_append, Array.size_map]

theorem getElem?_onto : (onto a f b)[a.size + i]? = b[i]?.map f := by
  rw [onto, Array.getElem?_append_right (Nat.le_add_right _ _), Nat.add_sub_cancel_left,
    Array.getElem?_map]

theorem onto_push : (onto a f b).push (f x) = onto a f (b.push x) := by
  rw [onto, onto, Array.map_push, Array.append_push]

theorem onto_modify (h : ∀ x, g' (f x) = f (g x)) :
    (onto a f b).modify (a.size + i) g' = onto a f (b.modify i g) := by
  refine Array.ext_getElem? fun j => ?_
  rw [Array.getElem?_modify]
  rcases Nat.lt_or_ge j a.size with hj | hj
  · rw [if_neg (by omega), onto, onto, Array.getElem?_append_left hj, Array.getElem?_append_left hj]
  · obtain ⟨k, rfl⟩ := Nat.exists_eq_add_of_le hj
    rw [getElem?_onto, getElem?_onto, Array.getElem?_modify]
    by_cases hk : i = k
    · rw [if_pos (by omega), if_pos hk, Option.map_map, Option.map_map]
      exact congrArg (Option.map · b[k]?) (funext h)
    · rw [if_neg (by omega), if_neg hk]

end

/-!
# Tables
-/

namespace Table

variable {α : Type} (f : α → α) (t : Table α)

/-- The table with its values changed. -/
def mapValues : Table α :=
  ⟨t.entries.map fun e => (e.1, f e.2)⟩

theorem get?_mapValues (key : Text) : (t.mapValues f).get? key = (t.get? key).map f := by
  have hlookup : ∀ entries : List (Text × α),
      lookup key (entries.map fun e => (e.1, f e.2)) = (lookup key entries).map f := by
    intro entries
    induction entries with
    | nil => rfl
    | cons e rest ih =>
      simp only [List.map_cons, lookup]
      split
      · rfl
      · exact ih
  exact hlookup t.entries

theorem insert_mapValues (key : Text) (v : α) :
    (t.mapValues f).insert key (f v) = (t.insert key v).mapValues f := by
  have hupdate : ∀ entries : List (Text × α),
      update key (f v) (entries.map fun e => (e.1, f e.2)) =
        (update key v entries).map fun e => (e.1, f e.2) := by
    intro entries
    induction entries with
    | nil => rfl
    | cons e rest ih =>
      simp only [List.map_cons, update]
      split
      · rfl
      · rw [List.map_cons, ih]
  exact congrArg Table.mk (hupdate t.entries)

theorem insertAll_mapValues (pairs : List (Text × α)) :
    (t.mapValues f).insertAll (pairs.map fun e => (e.1, f e.2)) = (t.insertAll pairs).mapValues f := by
  induction pairs generalizing t with
  | nil => rfl
  | cons e rest ih =>
    show ((t.mapValues f).insert e.1 (f e.2)).insertAll _ = _
    rw [insert_mapValues]
    exact ih (t.insert e.1 e.2)

end Table

/-!
# Shifting
-/

/-- The value with the numbers of its objects shifted. -/
def Value.shift (p : Store) : Value → Value
  | list l => list (p.lists.size + l)
  | dict d => dict (p.dicts.size + d)
  | closure c => closure (p.closures.size + c)
  | inst i => inst (p.instances.size + i)
  | bound n receiver => bound n (receiver.shift p)
  | v => v

theorem Value.shift_inert {v : Value} (h : v.Inert) (p : Store) : v.shift p = v := by
  induction v with
  | list | dict | closure | inst => exact h.elim
  | bound n receiver ih => exact congrArg (bound n) (ih h)
  | _ => rfl

/-- The number of a frame, shifted. -/
def shiftFrame (p : Store) (f : Option FrameId) : Option FrameId :=
  f.map (p.frames.size + ·)

def Row.shift (p : Store) (row : Row) : Row :=
  { row with cells := row.cells.map (Value.shift p) }

def Window.shift (p : Store) (w : Window) : Window :=
  ⟨p.rows.size + w.row, w.size⟩

def Instance.shift (p : Store) (inst : Instance) : Instance :=
  { inst with fields := inst.fields.mapValues (Value.shift p) }

def Closure.shift (p : Store) (c : Closure) : Closure :=
  { c with frame := shiftFrame p c.frame, receiver := c.receiver.map (Value.shift p) }

def FrameKind.shift (p : Store) : FrameKind → FrameKind
  | block => block
  | boundary name site caller native => boundary name site (shiftFrame p caller) native

def Frame.shift (p : Store) (fr : Frame) : Frame :=
  ⟨fr.vars.mapValues (Value.shift p), shiftFrame p fr.outer, fr.kind.shift p⟩

namespace Frame

variable (p : Store) (fr : Frame)

theorem isBoundary_shift : (fr.shift p).isBoundary = fr.isBoundary := by
  obtain ⟨vars, outer, kind⟩ := fr
  cases kind <;> rfl

theorem name_shift : (fr.shift p).name = fr.name := by
  obtain ⟨vars, outer, kind⟩ := fr
  cases kind <;> rfl

theorem site_shift : (fr.shift p).site = fr.site := by
  obtain ⟨vars, outer, kind⟩ := fr
  cases kind <;> rfl

theorem native_shift : (fr.shift p).native = fr.native := by
  obtain ⟨vars, outer, kind⟩ := fr
  cases kind <;> rfl

theorem caller_shift : (fr.shift p).caller = shiftFrame p fr.caller := by
  obtain ⟨vars, outer, kind⟩ := fr
  cases kind <;> rfl

end Frame

namespace Store

/-- A store behind another one. -/
def shift (p s : Store) : Store where
  rows := onto p.rows (Row.shift p) s.rows
  lists := onto p.lists (Window.shift p) s.lists
  dicts := onto p.dicts (Table.mapValues (Value.shift p)) s.dicts
  instances := onto p.instances (Instance.shift p) s.instances
  closures := onto p.closures (Closure.shift p) s.closures
  frames := onto p.frames (Frame.shift p) s.frames

section
variable (p s : Store)

/-!
# Reading
-/

theorem frame?_shift (f : FrameId) :
    (p.shift s).frame? (p.frames.size + f) = (s.frame? f).map (Frame.shift p) :=
  getElem?_onto

theorem closure?_shift (c : ClosureId) :
    (p.shift s).closure? (p.closures.size + c) = (s.closure? c).map (Closure.shift p) :=
  getElem?_onto

theorem instance?_shift (i : InstanceId) :
    (p.shift s).instance? (p.instances.size + i) = (s.instance? i).map (Instance.shift p) :=
  getElem?_onto

theorem instanceType_shift (i : InstanceId) :
    (p.shift s).instanceType (p.instances.size + i) = s.instanceType i := by
  have hi : (p.shift s).instances[p.instances.size + i]? = (s.instances[i]?).map (Instance.shift p) :=
    getElem?_onto
  unfold instanceType
  rw [hi]
  cases s.instances[i]? <;> rfl

theorem field?_shift (i : InstanceId) (name : Text) :
    (p.shift s).field? (p.instances.size + i) name = (s.field? i name).map (Value.shift p) := by
  have hi : (p.shift s).instances[p.instances.size + i]? = (s.instances[i]?).map (Instance.shift p) :=
    getElem?_onto
  unfold field?
  rw [hi]
  cases s.instances[i]? with
  | none => rfl
  | some inst => exact Table.get?_mapValues _ _ _

theorem dict_shift (d : DictId) :
    (p.shift s).dict (p.dicts.size + d) = (s.dict d).mapValues (Value.shift p) := by
  have hd : (p.shift s).dicts[p.dicts.size + d]? =
      (s.dicts[d]?).map (Table.mapValues (Value.shift p)) := getElem?_onto
  unfold dict
  rw [hd]
  cases s.dicts[d]? <;> rfl

theorem rowCells_shift (r : Nat) :
    (p.shift s).rowCells (p.rows.size + r) = (s.rowCells r).map (Value.shift p) := by
  have hr : (p.shift s).rows[p.rows.size + r]? = (s.rows[r]?).map (Row.shift p) := getElem?_onto
  unfold rowCells
  rw [hr]
  cases s.rows[r]? with
  | none => exact Array.map_empty.symm
  | some row => rfl

theorem rowGet_shift (r i : Nat) : (p.shift s).rowGet (p.rows.size + r) i = (s.rowGet r i).shift p := by
  unfold rowGet
  rw [rowCells_shift, Array.getElem?_map]
  cases (s.rowCells r)[i]? <;> rfl

theorem typeName_shift (v : Value) : (p.shift s).typeName (v.shift p) = s.typeName v := by
  cases v with
  | inst i => exact congrArg TypeInfo.name (instanceType_shift p s i)
  | _ => rfl

end

section
variable {p s : Store} {l : ListId}

theorem window_shift (hl : l < s.lists.size) :
    (p.shift s).window (p.lists.size + l) = (s.window l).shift p := by
  have hw : (p.shift s).lists[p.lists.size + l]? = (s.lists[l]?).map (Window.shift p) := getElem?_onto
  unfold window
  rw [hw, Array.getElem?_eq_getElem hl]
  rfl

theorem listSize_shift (hl : l < s.lists.size) :
    (p.shift s).listSize (p.lists.size + l) = s.listSize l := by
  unfold listSize
  rw [window_shift hl]
  rfl

theorem listGet_shift (hl : l < s.lists.size) (i : Nat) :
    (p.shift s).listGet (p.lists.size + l) i = (s.listGet l i).shift p := by
  unfold listGet
  rw [window_shift hl]
  exact rowGet_shift p s _ i

theorem items_shift (hl : l < s.lists.size) :
    (p.shift s).items (p.lists.size + l) = (s.items l).map (Value.shift p) := by
  unfold items
  rw [window_shift hl]
  dsimp only [Window.shift]
  rw [rowCells_shift, Array.size_map]
  split
  · rfl
  · exact Array.map_extract.symm

end

/-!
# Changing
-/

section
variable (p s : Store)

theorem newFrame_shift (fr : Frame) :
    (p.shift s).newFrame (fr.shift p) = (p.frames.size + (s.newFrame fr).1, p.shift (s.newFrame fr).2) := by
  unfold newFrame shift
  dsimp only
  rw [size_onto, onto_push]

theorem newClosure_shift (c : Closure) :
    (p.shift s).newClosure (c.shift p) =
      (p.closures.size + (s.newClosure c).1, p.shift (s.newClosure c).2) := by
  unfold newClosure shift
  dsimp only
  rw [size_onto, onto_push]

theorem newDict_shift (t : Table Value) :
    (p.shift s).newDict (t.mapValues (Value.shift p)) =
      (p.dicts.size + (s.newDict t).1, p.shift (s.newDict t).2) := by
  unfold newDict shift
  dsimp only
  rw [size_onto, onto_push]

theorem newListIn_shift (items : Array Value) (capacity : Nat) :
    (p.shift s).newListIn (items.map (Value.shift p)) capacity =
      (p.lists.size + (s.newListIn items capacity).1, p.shift (s.newListIn items capacity).2) := by
  have hrow : (⟨items.map (Value.shift p), capacity⟩ : Row) = Row.shift p ⟨items, capacity⟩ := rfl
  have hwindow : (⟨p.rows.size + s.rows.size, items.size⟩ : Window) =
      Window.shift p ⟨s.rows.size, items.size⟩ := rfl
  unfold newListIn shift
  dsimp only
  rw [size_onto, size_onto, Array.size_map, hrow, hwindow, onto_push, onto_push]

theorem pushInstance_shift (inst : Instance) :
    { p.shift s with instances := (p.shift s).instances.push (inst.shift p) } =
      p.shift { s with instances := s.instances.push inst } := by
  unfold shift
  dsimp only
  rw [onto_push]

theorem newInstance_shift (t : TypeInfo) :
    (p.shift s).newInstance t = (p.instances.size + (s.newInstance t).1, p.shift (s.newInstance t).2) := by
  have hfields : ∀ (fields : List Text) (acc : Table Value),
      fields.foldl (fun acc f => acc.insert f Value.null) (acc.mapValues (Value.shift p)) =
        (fields.foldl (fun acc f => acc.insert f Value.null) acc).mapValues (Value.shift p) := by
    intro fields
    induction fields with
    | nil => exact fun _ => rfl
    | cons f rest ih =>
      intro acc
      show rest.foldl _ ((acc.mapValues (Value.shift p)).insert f (Value.null.shift p)) = _
      rw [Table.insert_mapValues]
      exact ih _
  have hinst : (⟨t, t.fields.foldl (fun acc f => acc.insert f Value.null) Table.empty⟩ : Instance) =
      Instance.shift p ⟨t, t.fields.foldl (fun acc f => acc.insert f Value.null) Table.empty⟩ :=
    congrArg (Instance.mk t) (hfields t.fields Table.empty)
  unfold newInstance
  dsimp only
  rw [hinst, pushInstance_shift, ← hinst]
  exact congrArg (·, _) size_onto

theorem define_shift (f : FrameId) (name : Text) (v : Value) :
    (p.shift s).define (p.frames.size + f) name (v.shift p) = p.shift (s.define f name v) := by
  unfold define shift
  dsimp only
  rw [onto_modify fun fr => ?_]
  unfold Frame.shift
  dsimp only
  rw [Table.insert_mapValues]

theorem setField_shift (i : InstanceId) (name : Text) (v : Value) :
    (p.shift s).setField (p.instances.size + i) name (v.shift p) = p.shift (s.setField i name v) := by
  unfold setField shift
  dsimp only
  rw [onto_modify fun inst => ?_]
  unfold Instance.shift
  dsimp only
  rw [Table.insert_mapValues]

theorem insertDict_shift (d : DictId) (key : Text) (v : Value) :
    (p.shift s).modifyDict (p.dicts.size + d) (·.insert key (v.shift p)) =
      p.shift (s.modifyDict d (·.insert key v)) := by
  unfold modifyDict shift
  dsimp only
  rw [onto_modify fun t => ?_]
  exact Table.insert_mapValues _ t key v

theorem nameClosure_shift (c : ClosureId) (name : Text) :
    { p.shift s with
      closures := (p.shift s).closures.modify (p.closures.size + c) fun cl =>
        { cl with name := name } } =
      p.shift { s with closures := s.closures.modify c fun cl => { cl with name := name } } := by
  have hname : ∀ cl : Closure, { cl.shift p with name := name } = Closure.shift p { cl with name := name } :=
    fun _ => rfl
  unfold shift
  dsimp only
  rw [onto_modify hname]

variable {p s}

theorem listSet_shift {l : ListId} (hl : l < s.lists.size) (i : Nat) (v : Value) :
    (p.shift s).listSet (p.lists.size + l) i (v.shift p) = p.shift (s.listSet l i v) := by
  have hwrite : ∀ row : Row,
      Row.write (Row.shift p row) i (v.shift p) = Row.shift p (Row.write row i v) := by
    intro row
    unfold Row.write ScriptEngine.Row.shift
    dsimp only
    rw [Array.size_map]
    split
    · rw [Array.map_setIfInBounds]
    · rw [Array.map_push]
  unfold listSet
  rw [window_shift hl]
  unfold shift Window.shift
  dsimp only
  rw [onto_modify hwrite]

theorem copy_shift {v : Value} (hv : s.Has v) :
    (p.shift s).copy (v.shift p) = ((s.copy v).1.shift p, p.shift (s.copy v).2) := by
  cases v with
  | list l =>
    unfold copy Value.shift
    dsimp only
    have hempty : ((s.items l).map (Value.shift p)).isEmpty = (s.items l).isEmpty := by
      rw [Array.isEmpty, Array.isEmpty, Array.size_map]
    rw [items_shift hv, hempty, Array.size_map, newListIn_shift]
  | dict d =>
    unfold copy Value.shift
    dsimp only
    rw [dict_shift, newDict_shift]
  | closure c =>
    unfold copy Value.shift
    dsimp only
    rw [closure?_shift]
    cases s.closure? c with
    | none => rfl
    | some cl =>
      simp only [Option.map_some]
      rw [newClosure_shift]
  | inst i =>
    unfold copy Value.shift
    dsimp only
    rw [instance?_shift]
    cases s.instance? i with
    | none => rfl
    | some inst =>
      simp only [Option.map_some]
      rw [pushInstance_shift]
      exact congrArg (fun n => (Value.inst n, _)) size_onto
  | _ => rfl

end

/-!
# Walking outward

A walk has as much fuel as its start allows, and this is more in a shifted store. It does not matter:
links lead to earlier frames, so no walk uses its fuel up.
-/

section
variable {p s : Store}

theorem Scoped.walkFuel_outer (hs : s.Scoped) {f : FrameId} {fr : Frame} (hfr : s.frame? f = some fr) :
    walkFuel fr.outer ≤ f := by
  cases hg : fr.outer with
  | none => exact Nat.zero_le f
  | some g => exact hs.outer f fr hfr g hg

theorem lookup_shift (hs : s.Scoped) (f : Option FrameId) (name : Text) (shallow : Bool) :
    (p.shift s).lookup (shiftFrame p f) name shallow =
      (s.lookup f name shallow).map fun found => (found.1.shift p, p.frames.size + found.2) := by
  have hwalk : ∀ fuel fuel' f, walkFuel f ≤ fuel → walkFuel f ≤ fuel' →
      (p.shift s).lookupFrom name shallow fuel' (shiftFrame p f) =
        (s.lookupFrom name shallow fuel f).map
          fun found => (found.1.shift p, p.frames.size + found.2) := by
    intro fuel
    induction fuel with
    | zero =>
      intro fuel' f hfuel hfuel'
      cases f with
      | none => cases fuel' <;> rfl
      | some f => exact absurd hfuel (Nat.not_succ_le_zero f)
    | succ fuel ih =>
      intro fuel' f hfuel hfuel'
      cases f with
      | none => cases fuel' <;> rfl
      | some f =>
        obtain ⟨fuel', rfl⟩ : ∃ n, fuel' = n + 1 :=
          Nat.exists_eq_succ_of_ne_zero fun h => Nat.not_succ_le_zero f (h ▸ hfuel')
        have hf : shiftFrame p (some f) = some (p.frames.size + f) := rfl
        rw [hf, lookupFrom, lookupFrom, frame?_shift]
        cases hfr : s.frame? f with
        | none => rfl
        | some fr =>
          simp only [Option.map_some]
          rw [Frame.isBoundary_shift, show (fr.shift p).vars.get? name = _ from
            Table.get?_mapValues _ _ _]
          cases fr.vars.get? name with
          | some v => rfl
          | none =>
            simp only [Option.map_none]
            split
            · rfl
            · have hlink := hs.walkFuel_outer hfr
              exact ih fuel' fr.outer (Nat.le_trans hlink (Nat.le_of_succ_le_succ hfuel))
                (Nat.le_trans hlink (Nat.le_of_succ_le_succ hfuel'))
  refine hwalk _ _ f (Nat.le_refl _) ?_
  cases f with
  | none => exact Nat.le_refl _
  | some f => exact Nat.succ_le_succ (Nat.le_add_left f _)

theorem boundary_shift (hs : s.Scoped) (f : Option FrameId) :
    (p.shift s).boundary (shiftFrame p f) = shiftFrame p (s.boundary f) := by
  have hwalk : ∀ fuel fuel' f, walkFuel f ≤ fuel → walkFuel f ≤ fuel' →
      (p.shift s).boundaryFrom fuel' (shiftFrame p f) = shiftFrame p (s.boundaryFrom fuel f) := by
    intro fuel
    induction fuel with
    | zero =>
      intro fuel' f hfuel hfuel'
      cases f with
      | none => cases fuel' <;> rfl
      | some f => exact absurd hfuel (Nat.not_succ_le_zero f)
    | succ fuel ih =>
      intro fuel' f hfuel hfuel'
      cases f with
      | none => cases fuel' <;> rfl
      | some f =>
        obtain ⟨fuel', rfl⟩ : ∃ n, fuel' = n + 1 :=
          Nat.exists_eq_succ_of_ne_zero fun h => Nat.not_succ_le_zero f (h ▸ hfuel')
        have hf : shiftFrame p (some f) = some (p.frames.size + f) := rfl
        rw [hf, boundaryFrom, boundaryFrom, frame?_shift]
        cases hfr : s.frame? f with
        | none => rfl
        | some fr =>
          simp only [Option.map_some]
          rw [Frame.isBoundary_shift]
          split
          · rfl
          · have hlink := hs.walkFuel_outer hfr
            exact ih fuel' fr.outer (Nat.le_trans hlink (Nat.le_of_succ_le_succ hfuel))
              (Nat.le_trans hlink (Nat.le_of_succ_le_succ hfuel'))
  refine hwalk _ _ f (Nat.le_refl _) ?_
  cases f with
  | none => exact Nat.le_refl _
  | some f => exact Nat.succ_le_succ (Nat.le_add_left f _)

theorem setNearest_shift (hs : s.Scoped) (f : FrameId) (name : Text) (v : Value) :
    (p.shift s).setNearest (p.frames.size + f) name (v.shift p) = p.shift (s.setNearest f name v) := by
  unfold setNearest
  rw [show some (p.frames.size + f) = shiftFrame p (some f) from rfl, lookup_shift hs]
  cases s.lookup (some f) name true with
  | none => exact define_shift p s f name v
  | some found => exact define_shift p s found.2 name v

theorem setOuter_shift (hs : s.Scoped) (f : FrameId) (name : Text) (v : Value) :
    (p.shift s).setOuter (p.frames.size + f) name (v.shift p) = p.shift (s.setOuter f name v) := by
  unfold setOuter
  rw [show some (p.frames.size + f) = shiftFrame p (some f) from rfl, boundary_shift hs]
  cases s.boundary (some f) with
  | none => exact define_shift p s f name v
  | some b =>
    have hb : ((p.shift s).frame? (p.frames.size + b)).bind (·.outer) =
        shiftFrame p ((s.frame? b).bind (·.outer)) := by
      rw [frame?_shift]
      cases s.frame? b <;> rfl
    simp only [shiftFrame, Option.map_some] at hb ⊢
    rw [hb]
    cases (s.frame? b).bind (·.outer) with
    | none => exact define_shift p s b name v
    | some around =>
      simp only [Option.map_some]
      rw [show some (p.frames.size + around) = shiftFrame p (some around) from rfl, lookup_shift hs]
      cases s.lookup (some around) name false with
      | none => exact define_shift p s around name v
      | some found => exact define_shift p s found.2 name v

/-- The boundary of a frame is not behind it. -/
theorem Scoped.boundary_le (hs : s.Scoped) {f b : FrameId} (h : s.boundary (some f) = some b) :
    b ≤ f := by
  have hwalk : ∀ fuel (f : FrameId), s.boundaryFrom fuel (some f) = some b → b ≤ f := by
    intro fuel
    induction fuel with
    | zero =>
      intro f h
      cases h
    | succ fuel ih =>
      intro f h
      rw [boundaryFrom] at h
      split at h
      · cases h
      rename_i fr hfr
      split at h
      · cases h
        exact Nat.le_refl b
      · cases hg : fr.outer with
        | none =>
          rw [hg] at h
          cases fuel <;> cases h
        | some g =>
          rw [hg] at h
          exact Nat.le_trans (ih g h) (Nat.le_of_lt (hs.outer f fr hfr g hg))
  exact hwalk _ f h

theorem traceFrom_shift (hs : s.Scoped) (b : Option FrameId) (site : Option Span) (acc : Trace)
    {fuel fuel' : Nat} (hfuel : walkFuel b ≤ fuel) (hfuel' : walkFuel b ≤ fuel') :
    Machine.traceFrom (p.shift s) fuel' (shiftFrame p b) site acc =
      Machine.traceFrom s fuel b site acc := by
  induction fuel generalizing fuel' b site acc with
  | zero =>
    cases b with
    | none => cases fuel' <;> rfl
    | some b => exact absurd hfuel (Nat.not_succ_le_zero b)
  | succ fuel ih =>
    cases b with
    | none => cases fuel' <;> rfl
    | some b =>
      obtain ⟨fuel', rfl⟩ : ∃ n, fuel' = n + 1 :=
        Nat.exists_eq_succ_of_ne_zero fun h => Nat.not_succ_le_zero b (h ▸ hfuel')
      rw [show shiftFrame p (some b) = some (p.frames.size + b) from rfl, Machine.traceFrom,
        Machine.traceFrom, frame?_shift]
      cases hfr : s.frame? b with
      | none => rfl
      | some fr =>
        simp only [Option.map_some]
        rw [Frame.name_shift, Frame.native_shift, Frame.site_shift, Frame.caller_shift]
        cases hcaller : fr.caller with
        | none => rfl
        | some caller =>
          have hlink : walkFuel (s.boundary (some caller)) ≤ b := by
            cases hb : s.boundary (some caller) with
            | none => exact Nat.zero_le b
            | some b' => exact Nat.lt_of_le_of_lt (hs.boundary_le hb) (hs.callers b fr hfr caller hcaller)
          simp only [shiftFrame, Option.map_some]
          rw [show some (p.frames.size + caller) = shiftFrame p (some caller) from rfl, boundary_shift hs]
          exact ih _ _ _ (Nat.le_trans hlink (Nat.le_of_succ_le_succ hfuel))
            (Nat.le_trans hlink (Nat.le_of_succ_le_succ hfuel'))

end
end Store

/-!
# Shown values

The text of a value does not depend on what else is in the store: in a store behind another one it
is the same, although all objects have other numbers there.
-/

namespace Container

variable {c c' : Container}

/-- The container with its number shifted. -/
def shift (p : Store) : Container → Container
  | list l => list (p.lists.size + l)
  | dict d => dict (p.dicts.size + d)
  | inst i => inst (p.instances.size + i)

theorem shift_inj {p : Store} (h : c.shift p = c'.shift p) : c = c' := by
  cases c <;> cases c'
  case list.list | dict.dict | inst.inst =>
    injection h with h
    rw [Nat.add_left_cancel h]
  all_goals cases h

end Container

theorem Value.container?_shift (p : Store) (v : Value) :
    (v.shift p).container? = v.container?.map (Container.shift p) := by
  cases v <;> rfl

namespace Store

variable {p s : Store} {v : Value} {c : Container}

theorem Has.container (h : s.Has v) (hc : v.container? = some c) : c.Within s := by
  cases v <;> cases hc <;> exact h

theorem Scoped.parts (hs : s.Scoped) (c : Container) : ∀ part ∈ s.parts c, s.Has part.2 := by
  intro part hpart
  cases c with
  | list l =>
    obtain ⟨v, hv, rfl⟩ := List.mem_map.mp hpart
    exact hs.items l v (Array.mem_toList_iff.mp hv)
  | dict d => exact hs.dict d part hpart
  | inst i =>
    obtain ⟨f, hf, rfl⟩ := List.mem_map.mp hpart
    dsimp only
    cases hv : s.field? i f with
    | none => trivial
    | some v => exact hs.field hv

/-!
# Shifted stores
-/

theorem leaf_shift (p s : Store) (v : Value) : (p.shift s).leaf (v.shift p) = s.leaf v := by
  cases v with
  | closure c =>
    unfold leaf Value.shift
    dsimp only
    rw [closure?_shift]
    cases s.closure? c <;> rfl
  | _ => rfl

theorem shape_shift (p s : Store) (c : Container) : (p.shift s).shape (c.shift p) = s.shape c := by
  cases c with
  | inst i => exact congrArg (fun t => Shape.record (TypeInfo.name t)) (instanceType_shift p s i)
  | _ => rfl

theorem parts_shift (hc : c.Within s) :
    (p.shift s).parts (c.shift p) = (s.parts c).map fun part => (part.1, part.2.shift p) := by
  cases c with
  | list l =>
    unfold parts Container.shift
    dsimp only
    rw [items_shift hc, Array.toList_map, List.map_map, List.map_map]
    rfl
  | dict d =>
    unfold parts Container.shift
    dsimp only
    rw [dict_shift]
    rfl
  | inst i =>
    have hfields : ∀ f : Text, ((p.shift s).field? (p.instances.size + i) f).getD .null =
        ((s.field? i f).getD .null).shift p := by
      intro f
      rw [field?_shift]
      cases s.field? i f <;> rfl
    unfold parts Container.shift
    dsimp only
    rw [instanceType_shift, List.map_map]
    simp only [hfields]
    rfl

theorem likeness_shift (p : Store) (hs : s.Scoped) :
    s.Likeness (p.shift s) (Container.shift p) fun v w => s.Has v ∧ w = v.shift p where
  leaf := by
    rintro v _ ⟨-, rfl⟩ hv
    rw [Value.container?_shift, hv]
    exact ⟨rfl, leaf_shift p s v⟩
  container := by
    rintro v _ c ⟨-, rfl⟩ hv
    rw [Value.container?_shift, hv]
    rfl
  shape := fun _ _ => shape_shift p s _
  parts := by
    rintro v _ c ⟨hhas, rfl⟩ hv
    rw [parts_shift (hhas.container hv), List.forall₂_map_right_iff]
    exact List.forall₂_same.mpr fun part hpart => ⟨rfl, hs.parts c part hpart, rfl⟩
  injective := fun _ _ _ _ => Container.shift_inj

theorem display_shift (hs : s.Scoped) (hv : s.Has v) :
    (p.shift s).display (v.shift p) = s.display v :=
  (prints_display _ _).unique ((likeness_shift p hs).prints (prints_display s v) ⟨hv, rfl⟩
    fun _ h => absurd h List.not_mem_nil)

theorem repr_shift (hs : s.Scoped) (hv : s.Has v) : (p.shift s).repr (v.shift p) = s.repr v :=
  (prints_repr _ _).unique ((likeness_shift p hs).prints (prints_repr s v) ⟨hv, rfl⟩
    fun _ h => absurd h List.not_mem_nil)

end Store
end ScriptEngine
