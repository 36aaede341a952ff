import ScriptEngine.Proofs.Store.Changes

/-!
# What an object holds

An object that is changed in place keeps its handle. No other object holds anything else afterwards:
for dicts, instances and closures because they are other objects, for lists because no two of them
share their cells.
-/

namespace ScriptEngine

/-- What an object holds itself. Objects that it refers to are not looked into. -/
inductive Content where
  | items (values : Array Value)
  | entries (table : Table Value)
  | fields (inst : Option Instance)
  | code (closure : Option Closure)
  | nothing

namespace Store

def content (s : Store) : Value → Content
  | .list l => .items (s.items l)
  | .dict d => .entries (s.dict d)
  | .inst i => .fields (s.instance? i)
  | .closure c => .code (s.closure? c)
  | _ => .nothing

/-- The store in which the object was changed in place. -/
inductive Alters (s : Store) : Value → Store → Prop
  | set (l : ListId) (i : Nat) (v : Value) : Alters s (.list l) (s.listSet l i v)
  | push (l : ListId) (v : Value) : Alters s (.list l) (s.listPush l v)
  | pop (l : ListId) : Alters s (.list l) (s.listPop l)
  | insert (l : ListId) (i : Nat) (v : Value) : Alters s (.list l) (s.listInsert l i v)
  | remove (l : ListId) (i : Nat) : Alters s (.list l) (s.listRemove l i)
  | entries (d : DictId) (f : Table Value → Table Value) : Alters s (.dict d) (s.modifyDict d f)
  | field (i : InstanceId) (name : Text) (v : Value) : Alters s (.inst i) (s.setField i name v)
  | name (c : ClosureId) (name : Text) : Alters s (.closure c)
      { s with closures := s.closures.modify c fun closure => { closure with name := name } }

section
variable {s s' : Store} {l l' : ListId} {u v : Value}

/-!
# Lists
-/

theorem window_eq (hl : l < s.lists.size) : s.lists[l]? = some (s.window l) := by
  unfold window
  rw [Array.getElem?_eq_getElem hl]
  rfl

theorem Separate.row_ne (h : s.Separate) (hl : l < s.lists.size) (hl' : l' < s.lists.size)
    (hne : l ≠ l') : (s.window l).row ≠ (s.window l').row :=
  fun hrow => hne (h l l' _ _ (window_eq hl) (window_eq hl') hrow)

theorem Row.mem_write {row : Row} {i : Nat} (h : u ∈ (Row.write row i v).cells) : u ∈ row.cells ∨ u = v := by
  unfold Row.write at h
  split at h
  · exact Array.mem_or_eq_of_mem_setIfInBounds h
  · exact Array.mem_push.mp h

theorem Row.mem_extract {cells : Array Value} {i j : Nat} (h : u ∈ cells.extract i j) : u ∈ cells := by
  obtain ⟨k, hk⟩ := Array.mem_iff_getElem?.mp h
  rw [Array.getElem?_extract] at hk
  split at hk
  · exact Array.mem_of_getElem? hk
  · cases hk

theorem getElem?_modify_ne {α : Type} {a : Array α} {f : α → α} {i j : Nat} (h : i ≠ j) :
    (a.modify i f)[j]? = a[j]? := by
  rw [Array.getElem?_modify, if_neg h]

/-- Making room moves the list to new cells or leaves everything as it is. -/
theorem listReserve_cases (s : Store) (l : ListId) :
    s.listReserve l = s ∨ ∃ row, s.listReserve l =
      { s with lists := s.lists.setIfInBounds l ⟨s.rows.size, (s.window l).size⟩
               rows := s.rows.push row } := by
  unfold listReserve
  dsimp only
  split
  · exact Or.inl rfl
  · split
    · exact Or.inl rfl
    · exact Or.inr ⟨_, rfl⟩

theorem listReserve_other (hne : l ≠ l') : (s.listReserve l).lists[l']? = s.lists[l']? := by
  rcases listReserve_cases s l with h | ⟨row, h⟩
  · rw [h]
  · rw [h]
    exact Array.getElem?_setIfInBounds_ne hne

theorem listReserve_cells {r : Nat} (hr : r < s.rows.size) :
    (s.listReserve l).rows[r]? = s.rows[r]? := by
  rcases listReserve_cases s l with h | ⟨row, h⟩
  · rw [h]
  · rw [h]
    exact (Array.getElem?_push_lt hr).trans (Array.getElem?_eq_getElem hr).symm

/-- The stores differ in one list, its cells, and cells that no list had before. -/
structure WorksOn (s : Store) (l : ListId) (s' : Store) : Prop where
  size : s'.lists.size = s.lists.size
  lists : ∀ l', l ≠ l' → s'.lists[l']? = s.lists[l']?
  cells : ∀ r < s.rows.size, r ≠ (s.window l).row → s'.rows[r]? = s.rows[r]?
  rows : s.rows.size ≤ s'.rows.size
  row : (s'.window l).row = (s.window l).row ∨ s.rows.size ≤ (s'.window l).row ∧ (s'.window l).row < s'.rows.size

namespace WorksOn

theorem refl (s : Store) (l : ListId) : s.WorksOn l s :=
  ⟨rfl, fun _ _ => rfl, fun _ _ _ => rfl, Nat.le_refl _, .inl rfl⟩

theorem modify (h : s.WorksOn l s') (g : Row → Row) :
    s.WorksOn l { s' with rows := s'.rows.modify (s'.window l).row g } where
  size := h.size
  lists := h.lists
  cells r hr hne := by
    have hrow : (s'.window l).row ≠ r := by
      rcases h.row with hsame | hnew
      · rw [hsame]
        exact hne.symm
      · omega
    exact (getElem?_modify_ne hrow).trans (h.cells r hr hne)
  rows := Nat.le_trans h.rows (Nat.le_of_eq Array.size_modify.symm)
  row := h.row.imp_right fun hnew => ⟨hnew.1, Nat.lt_of_lt_of_eq hnew.2 Array.size_modify.symm⟩

theorem resize (h : s.WorksOn l s') (hl : l < s.lists.size) (n : Nat) :
    s.WorksOn l { s' with lists := s'.lists.setIfInBounds l { s'.window l with size := n } } where
  size := Array.size_setIfInBounds.trans h.size
  lists l' hne := (Array.getElem?_setIfInBounds_ne hne).trans (h.lists l' hne)
  cells := h.cells
  rows := h.rows
  row := by
    have hwindow : ({ s' with lists := s'.lists.setIfInBounds l { s'.window l with size := n } } :
        Store).window l = { s'.window l with size := n } := by
      unfold window
      dsimp only
      rw [Array.getElem?_setIfInBounds_self_of_lt (Nat.lt_of_lt_of_eq hl h.size.symm)]
      rfl
    rw [hwindow]
    exact h.row

theorem rework (h : s.WorksOn l s') (hl : l < s.lists.size) (g : Row → Row) (n : Nat) :
    s.WorksOn l { s' with
      lists := s'.lists.setIfInBounds l { s'.window l with size := n }
      rows := s'.rows.modify (s'.window l).row g } :=
  (h.modify g).resize hl n

theorem reserve (hl : l < s.lists.size) : s.WorksOn l (s.listReserve l) := by
  rcases listReserve_cases s l with h | ⟨row, h⟩
  · rw [h]
    exact .refl s l
  · refine ⟨?_, fun l' hne => listReserve_other hne, fun r hr _ => listReserve_cells hr, ?_, .inr ?_⟩
    · rw [h]
      exact Array.size_setIfInBounds
    · rw [h]
      exact Nat.le_of_lt (by simp)
    · rw [h]
      unfold window
      dsimp only
      rw [Array.getElem?_setIfInBounds_self_of_lt hl]
      exact ⟨Nat.le_refl _, by simp⟩

theorem of_alters (h : s.Alters (.list l) s') (hl : l < s.lists.size) : s.WorksOn l s' := by
  cases h with
  | set _ i v => exact (refl s l).modify _
  | push _ v => exact (reserve hl).rework hl (Row.write · ((s.listReserve l).window l).size v) _
  | pop => exact (refl s l).resize hl _
  | insert _ i v => exact (reserve hl).rework hl (Row.insertAt · i ((s.listReserve l).window l).size v) _
  | remove _ i => exact (refl s l).rework hl (Row.removeAt · i (s.window l).size) _

end WorksOn

/-- Work on one list is not seen in another list. -/
theorem WorksOn.items (h : s.WorksOn l s') (hs : ∀ w ∈ s.lists, w.row < s.rows.size) (hrows : s.Separate)
    (hl : l < s.lists.size) (hl' : l' < s.lists.size) (hne : l ≠ l') : s'.items l' = s.items l' := by
  have hwindow : s'.window l' = s.window l' := by
    unfold window
    rw [h.lists l' hne]
  have hrow : s'.rows[(s.window l').row]? = s.rows[(s.window l').row]? :=
    h.cells _ (hs _ (Array.mem_of_getElem? (window_eq hl'))) (hrows.row_ne hl hl' hne).symm
  unfold Store.items rowCells
  rw [hwindow]
  dsimp only
  rw [hrow]

/-- After work on one list every list has cells. -/
theorem WorksOn.windows (h : s.WorksOn l s') (hs : ∀ w ∈ s.lists, w.row < s.rows.size) (hl : l < s.lists.size) :
    ∀ w ∈ s'.lists, w.row < s'.rows.size := by
  intro w hw
  obtain ⟨l', hlt, rfl⟩ := Array.getElem_of_mem hw
  have hlt' := Nat.lt_of_lt_of_eq hlt h.size
  have hget : s'.lists[l']? = some s'.lists[l'] := Array.getElem?_eq_getElem hlt
  by_cases hne : l = l'
  · subst hne
    rw [show s'.lists[l] = s'.window l from Option.some.inj (hget.symm.trans (window_eq hlt))]
    rcases h.row with hsame | hnew
    · rw [hsame]
      exact Nat.lt_of_lt_of_le (hs _ (Array.mem_of_getElem? (window_eq hl))) h.rows
    · exact hnew.2
  · rw [h.lists l' hne] at hget
    exact Nat.lt_of_lt_of_le (hs _ (Array.mem_of_getElem? hget)) h.rows

/-- After work on one list no two lists share their cells: the cells of the list are its old ones or new
ones, so no other list has them. -/
theorem Separate.works (hrows : s.Separate) (hs : ∀ w ∈ s.lists, w.row < s.rows.size) (hwork : s.WorksOn l s')
    (hl : l < s.lists.size) : s'.Separate := by
  have hother : ∀ l', l ≠ l' → ∀ w', s'.lists[l']? = some w' → (s'.window l).row ≠ w'.row := by
    intro l' hne w' hw'
    have hlt : l' < s.lists.size := by
      rw [← hwork.size]
      exact (Array.getElem?_eq_some_iff.mp hw').1
    rw [hwork.lists l' hne, window_eq hlt] at hw'
    cases hw'
    rcases hwork.row with hsame | hnew
    · rw [hsame]
      exact hrows.row_ne hl hlt hne
    · exact Nat.ne_of_gt (Nat.lt_of_lt_of_le (hs _ (Array.mem_of_getElem? (window_eq hlt))) hnew.1)
  have hself : s'.lists[l]? = some (s'.window l) := window_eq (Nat.lt_of_lt_of_eq hl hwork.size.symm)
  intro l₁ l₂ w₁ w₂ h₁ h₂ hrow
  by_cases hl₁ : l = l₁
  · by_cases hl₂ : l = l₂
    · rw [← hl₁, ← hl₂]
    · subst hl₁
      cases hself.symm.trans h₁
      exact absurd hrow (hother l₂ hl₂ w₂ h₂)
  · by_cases hl₂ : l = l₂
    · subst hl₂
      cases hself.symm.trans h₂
      exact absurd hrow.symm (hother l₁ hl₁ w₁ h₁)
    · rw [hwork.lists l₁ hl₁] at h₁
      rw [hwork.lists l₂ hl₂] at h₂
      exact hrows l₁ l₂ w₁ w₂ h₁ h₂ hrow

/-- What is in a cell after work on rows was there before, or is as the work says. -/
def PutsIn (s s' : Store) (P : Value → Prop) : Prop :=
  ∀ row ∈ s'.rows, ∀ u ∈ row.cells, (∃ row' ∈ s.rows, u ∈ row'.cells) ∨ P u

theorem PutsIn.imp {P Q : Value → Prop} (h : s.PutsIn s' P) (hPQ : ∀ u, P u → Q u) : s.PutsIn s' Q :=
  fun row hrow u hu => (h row hrow u hu).imp_right (hPQ u)

theorem putsIn_modify {P : Value → Prop} (h : s.PutsIn s' P) (lists : Array Window) (r : Nat) {g : Row → Row}
    (hg : ∀ row, ∀ u ∈ (g row).cells, u ∈ row.cells ∨ P u) :
    s.PutsIn { s' with lists := lists, rows := s'.rows.modify r g } P := by
  intro row hrow u hu
  rcases mem_modify hrow with hrow | ⟨row', hrow', rfl⟩
  · exact h row hrow u hu
  · exact (hg row' u hu).elim (h row' hrow' u) Or.inr

theorem putsIn_refl (s : Store) (P : Value → Prop) : s.PutsIn s P :=
  fun row hrow _ hu => Or.inl ⟨row, hrow, hu⟩

theorem putsIn_set (s : Store) (l : ListId) (i : Nat) (v : Value) : s.PutsIn (s.listSet l i v) (· = v) :=
  putsIn_modify (putsIn_refl s _) _ _ fun _ _ hu => Row.mem_write hu

theorem content_congr (hitems : ∀ l, v = .list l → s'.items l = s.items l)
    (hdict : ∀ d, v = .dict d → s'.dicts[d]? = s.dicts[d]?)
    (hinst : ∀ i, v = .inst i → s'.instances[i]? = s.instances[i]?)
    (hclosure : ∀ c, v = .closure c → s'.closures[c]? = s.closures[c]?) :
    s'.content v = s.content v := by
  cases v with
  | list l => exact congrArg Content.items (hitems l rfl)
  | dict d => exact congrArg (fun t : Option (Table Value) => Content.entries (t.getD .empty)) (hdict d rfl)
  | inst i => exact congrArg Content.fields (hinst i rfl)
  | closure c => exact congrArg Content.code (hclosure c rfl)
  | _ => rfl

/-- Work on one list is not seen in any other object. -/
theorem WorksOn.content (h : s.WorksOn l s') (hs : ∀ w ∈ s.lists, w.row < s.rows.size) (hrows : s.Separate)
    (hdicts : s'.dicts = s.dicts) (hinstances : s'.instances = s.instances) (hclosures : s'.closures = s.closures)
    (hl : s.Has (.list l)) (hv : s.Has v) (hne : Value.list l ≠ v) : s'.content v = s.content v := by
  refine content_congr ?_ ?_ ?_ ?_
  · rintro l' rfl
    exact h.items hs hrows hl hv fun h => hne (congrArg Value.list h)
  · exact fun _ _ => hdicts ▸ rfl
  · exact fun _ _ => hinstances ▸ rfl
  · exact fun _ _ => hclosures ▸ rfl

/-- Making room moves cells only. -/
theorem listReserve_rest (s : Store) (l : ListId) : (s.listReserve l).dicts = s.dicts ∧
    (s.listReserve l).instances = s.instances ∧ (s.listReserve l).closures = s.closures ∧
    (s.listReserve l).frames = s.frames := by
  rcases listReserve_cases s l with h | ⟨row, h⟩
  · rw [h]
    exact ⟨rfl, rfl, rfl, rfl⟩
  · rw [h]
    exact ⟨rfl, rfl, rfl, rfl⟩

/-- What is done to a list is done to no other kind of object. -/
theorem Alters.rest (h : s.Alters (.list l) s') : s'.dicts = s.dicts ∧ s'.instances = s.instances ∧
    s'.closures = s.closures ∧ s'.frames = s.frames := by
  cases h with
  | push | insert => exact listReserve_rest s l
  | _ => exact ⟨rfl, rfl, rfl, rfl⟩

/-- Changing an object in place is not seen in any other object. -/
theorem Alters.content (h : s.Alters u s') (hs : s.Scoped) (hrows : s.Separate) (hu : s.Has u)
    (hv : s.Has v) (hne : u ≠ v) : s'.content v = s.content v := by
  have hlist : ∀ {l}, s.Alters (.list l) s' → u = .list l → s'.content v = s.content v := by
    rintro l h rfl
    obtain ⟨hdicts, hinstances, hclosures, -⟩ := h.rest
    exact (WorksOn.of_alters h hu).content hs.windows hrows hdicts hinstances hclosures hu hv hne
  cases h with
  | set l i w => exact hlist (.set l i w) rfl
  | push l w => exact hlist (.push l w) rfl
  | pop l => exact hlist (.pop l) rfl
  | insert l i w => exact hlist (.insert l i w) rfl
  | remove l i => exact hlist (.remove l i) rfl
  | entries d f =>
    refine content_congr (fun _ _ => rfl) ?_ (fun _ _ => rfl) (fun _ _ => rfl)
    rintro d' rfl
    exact getElem?_modify_ne fun h => hne (congrArg Value.dict h)
  | field i name w =>
    refine content_congr (fun _ _ => rfl) (fun _ _ => rfl) ?_ (fun _ _ => rfl)
    rintro i' rfl
    exact getElem?_modify_ne fun h => hne (congrArg Value.inst h)
  | name c name =>
    refine content_congr (fun _ _ => rfl) (fun _ _ => rfl) (fun _ _ => rfl) ?_
    rintro c' rfl
    exact getElem?_modify_ne fun h => hne (congrArg Value.closure h)

end
end Store
end ScriptEngine
