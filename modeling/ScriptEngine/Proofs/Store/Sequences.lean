import ScriptEngine.Proofs.Store.Contents

/-!
# Lists as sequences

A list that has all of its cells is a sequence of values, and work on the list is work on the sequence:
elements are changed, put behind the others or between them, and taken out. Other lists keep their
sequences, because no two lists share their cells.
-/

namespace ScriptEngine
namespace Store

/-!
# Work on rows
-/

namespace Row

variable {row : ScriptEngine.Row} {i n : Nat}

theorem toList_write (hi : i < n) (hn : n ≤ row.cells.size) (v : Value) :
    (write row i v).cells.toList.take n = (row.cells.toList.take n).set i v := by
  unfold write
  rw [if_pos (Nat.lt_of_lt_of_le hi hn), Array.toList_setIfInBounds, List.take_set]

/-- The cell behind the elements, whether it was ever written or not. -/
theorem toList_write_end (hn : n ≤ row.cells.size) (v : Value) :
    (write row n v).cells.toList.take (n + 1) = row.cells.toList.take n ++ [v] := by
  unfold write
  split
  · rename_i hlt
    have hlt : n < (row.cells.toList.set n v).length := by
      rw [List.length_set]
      exact hlt
    rw [Array.toList_setIfInBounds, ← List.take_append_getElem hlt, List.take_set_of_le (Nat.le_refl n),
      List.getElem_set_self]
  · rename_i hge
    obtain rfl : n = row.cells.size := by omega
    rw [Array.toList_push, ← Array.length_toList, List.take_length]
    exact List.take_of_length_le (Nat.le_of_eq List.length_append)

theorem size_write (row : ScriptEngine.Row) (i : Nat) (v : Value) :
    row.cells.size ≤ (write row i v).cells.size := by
  unfold write
  split
  · exact Nat.le_of_eq (Array.size_setIfInBounds ..).symm
  · exact size_le_push _ _

theorem size_write_end (hn : n ≤ row.cells.size) (v : Value) :
    n + 1 ≤ (write row n v).cells.size := by
  unfold write
  split
  · rename_i hlt
    exact Nat.lt_of_lt_of_eq hlt (Array.size_setIfInBounds ..).symm
  · rw [Array.size_push]
    exact Nat.succ_le_succ hn

theorem insertIdx_eq {vs : List Value} (hi : i ≤ vs.length) (v : Value) :
    vs.insertIdx i v = vs.take i ++ v :: vs.drop i := by
  induction vs generalizing i with
  | nil =>
    obtain rfl : i = 0 := Nat.le_zero.mp hi
    rfl
  | cons u vs ih =>
    cases i with
    | zero => rfl
    | succ i =>
      rw [List.insertIdx_succ_cons, ih (Nat.le_of_succ_le_succ hi)]
      rfl

theorem take_drop_size (cells : Array Value) (i : Nat) :
    (cells.toList.drop i).take (cells.size - i) = cells.toList.drop i := by
  rw [← Array.length_toList, ← List.length_drop, List.take_length]

theorem toList_insertAt (row : ScriptEngine.Row) (i n : Nat) (v : Value) :
    (insertAt row i n v).cells.toList =
      row.cells.toList.take i ++ v :: (row.cells.toList.take n).drop i ++
        row.cells.toList.drop (n + 1) := by
  unfold insertAt
  simp only [Array.toList_append, Array.toList_extract, List.extract_eq_take_drop, take_drop_size,
    List.drop_zero, Nat.sub_zero, List.drop_take, List.append_assoc, List.cons_append, List.nil_append]

theorem toList_removeAt (row : ScriptEngine.Row) (i n : Nat) :
    (removeAt row i n).cells.toList =
      row.cells.toList.take i ++ (row.cells.toList.take n).drop (i + 1) ++
        row.cells.toList.drop (n - 1) := by
  unfold removeAt
  simp only [Array.toList_append, Array.toList_extract, List.extract_eq_take_drop, take_drop_size,
    List.drop_zero, Nat.sub_zero, List.drop_take]

/-- The elements from a position on move up by one, into the cell behind them. -/
theorem toList_insertAt_take (hi : i ≤ n) (hn : n ≤ row.cells.size) (v : Value) :
    (insertAt row i n v).cells.toList.take (n + 1) = (row.cells.toList.take n).insertIdx i v := by
  have hlength : (row.cells.toList.take n).length = n := List.length_take_of_le hn
  have htake : row.cells.toList.take i = (row.cells.toList.take n).take i := by
    rw [List.take_take, Nat.min_eq_left hi]
  rw [toList_insertAt, insertIdx_eq (by omega), htake]
  exact List.take_left' (by simp; omega)

/-- The elements behind a position move down by one. -/
theorem toList_removeAt_take (hi : i < n) (hn : n ≤ row.cells.size) :
    (removeAt row i n).cells.toList.take (n - 1) = (row.cells.toList.take n).eraseIdx i := by
  have hlength : (row.cells.toList.take n).length = n := List.length_take_of_le hn
  have htake : row.cells.toList.take i = (row.cells.toList.take n).take i := by
    rw [List.take_take, Nat.min_eq_left (Nat.le_of_lt hi)]
  rw [toList_removeAt, List.eraseIdx_eq_take_drop_succ, htake]
  exact List.take_left' (by simp; omega)

theorem size_insertAt (hn : n ≤ row.cells.size) (i : Nat) (v : Value) :
    n + 1 ≤ (insertAt row i n v).cells.size := by
  rw [← Array.length_toList, toList_insertAt]
  simp
  omega

theorem size_removeAt (hn : n ≤ row.cells.size) (i : Nat) :
    n - 1 ≤ (removeAt row i n).cells.size := by
  rw [← Array.length_toList, toList_removeAt]
  simp
  omega

end Row

/-- The list has all of its cells, and these are the elements in them. -/
inductive Sequence (s : Store) (l : ListId) : List Value → Prop
  | mk {w : Window} {row : Row} (hwindow : s.lists[l]? = some w) (hrow : s.rows[w.row]? = some row)
    (hsize : w.size ≤ row.cells.size) : Sequence s l (row.cells.toList.take w.size)

/-- Every list has its cells, and has them to itself. -/
structure Listed (s : Store) : Prop where
  lists : ∀ l < s.lists.size, ∃ vs, s.Sequence l vs
  separate : s.Separate

section
variable {s s' : Store} {l l' : ListId} {vs us : List Value} {v : Value} {i n : Nat}

/-!
# What a list has
-/

namespace Sequence

theorem of_cells {r : Nat} (row : ScriptEngine.Row) (hwindow : s.lists[l]? = some ⟨r, n⟩)
    (hrow : s.rows[r]? = some row) (hsize : n ≤ row.cells.size) :
    s.Sequence l (row.cells.toList.take n) :=
  .mk hwindow hrow hsize

theorem lt (h : s.Sequence l vs) : l < s.lists.size := by
  obtain ⟨hwindow, -, -⟩ := h
  exact (Array.getElem?_eq_some_iff.mp hwindow).1

theorem window (h : s.Sequence l vs) : ∃ row, s.rows[(s.window l).row]? = some row ∧
    (s.window l).size ≤ row.cells.size ∧ vs = row.cells.toList.take (s.window l).size := by
  have hlt := h.lt
  obtain ⟨hwindow, hrow, hsize⟩ := h
  cases (window_eq hlt).symm.trans hwindow
  exact ⟨_, hrow, hsize, rfl⟩

theorem items (h : s.Sequence l vs) : (s.items l).toList = vs := by
  obtain ⟨row, hrow, hsize, rfl⟩ := h.window
  unfold Store.items rowCells
  dsimp only
  rw [hrow]
  dsimp only
  split
  · rename_i heq
    rw [← eq_of_beq heq, ← Array.length_toList, List.take_length]
  · rw [Array.toList_extract, List.extract_eq_take_drop, List.drop_zero, Nat.sub_zero]

theorem size_window (h : s.Sequence l vs) : (s.window l).size = vs.length := by
  obtain ⟨row, -, hsize, rfl⟩ := h.window
  exact (List.length_take_of_le hsize).symm

theorem size (h : s.Sequence l vs) : s.listSize l = vs.length :=
  h.size_window

theorem get (h : s.Sequence l vs) (hi : i < vs.length) : vs[i]? = some (s.listGet l i) := by
  have hlt : i < (s.window l).size := Nat.lt_of_lt_of_eq hi h.size_window.symm
  obtain ⟨row, hrow, hsize, rfl⟩ := h.window
  have hcell : i < row.cells.size := Nat.lt_of_lt_of_le hlt hsize
  rw [List.getElem?_take_of_lt hlt]
  unfold listGet rowGet rowCells
  rw [hrow, Array.getElem?_toList, Array.getElem?_eq_getElem hcell]
  rfl

/-- A list is as it was if its window and its row are. -/
theorem of_same (h : s.Sequence l vs) (hlists : s'.lists[l]? = s.lists[l]?)
    (hrows : s'.rows[(s.window l).row]? = s.rows[(s.window l).row]?) : s'.Sequence l vs := by
  have hlt := h.lt
  obtain ⟨hwindow, hrow, hsize⟩ := h
  have hw := Option.some.inj (hwindow.symm.trans (window_eq hlt))
  subst hw
  exact .mk (hlists.trans hwindow) (hrows.trans hrow) hsize

/-- Work on the row of a list, and on how much of the row is the list. -/
theorem rework (h : s.Sequence l vs) (g : Row → Row) (size : Nat) :
    ∃ row, s.rows[(s.window l).row]? = some row ∧ (s.window l).size ≤ row.cells.size ∧
      vs = row.cells.toList.take (s.window l).size ∧
      (size ≤ (g row).cells.size →
        Sequence { s with
          lists := s.lists.setIfInBounds l { s.window l with size := size }
          rows := s.rows.modify (s.window l).row g } l ((g row).cells.toList.take size)) := by
  obtain ⟨row, hrow, hsize, hvs⟩ := h.window
  refine ⟨row, hrow, hsize, hvs, fun hnew => ?_⟩
  have hwork : (s.rows.modify (s.window l).row g)[(s.window l).row]? = some (g row) := by
    rw [Array.getElem?_modify, if_pos rfl, hrow]
    rfl
  exact of_cells _ (Array.getElem?_setIfInBounds_self_of_lt h.lt) hwork hnew

theorem reserve (h : s.Sequence l vs) : (s.listReserve l).Sequence l vs := by
  obtain ⟨row, hrow, hsize, rfl⟩ := h.window
  unfold listReserve
  dsimp only
  rw [hrow]
  dsimp only
  split
  · exact h
  · have hkept : row.cells.toList.take (s.window l).size =
        (row.cells.extract 0 (s.window l).size).toList.take (s.window l).size := by
      rw [Array.toList_extract, List.extract_eq_take_drop, List.drop_zero, Nat.sub_zero, List.take_take,
        Nat.min_self]
    rw [hkept]
    refine of_cells ⟨row.cells.extract 0 (s.window l).size, _⟩
      (Array.getElem?_setIfInBounds_self_of_lt h.lt) Array.getElem?_push_size ?_
    rw [Array.size_extract]
    omega

theorem set (h : s.Sequence l vs) (hi : i < vs.length) (v : Value) :
    (s.listSet l i v).Sequence l (vs.set i v) := by
  have hlt := h.lt
  have hlength := h.size_window
  obtain ⟨row, hrow, hsize, rfl⟩ := h.window
  have hwork : (s.rows.modify (s.window l).row (Row.write · i v))[(s.window l).row]? =
      some (Row.write row i v) := by
    rw [Array.getElem?_modify, if_pos rfl, hrow]
    rfl
  rw [← Row.toList_write (Nat.lt_of_lt_of_eq hi hlength.symm) hsize]
  exact of_cells _ (window_eq hlt) hwork (Nat.le_trans hsize (Row.size_write row i v))

theorem push (h : s.Sequence l vs) (v : Value) : (s.listPush l v).Sequence l (vs ++ [v]) := by
  obtain ⟨row, -, hsize, hvs, hwork⟩ := h.reserve.rework
    (Row.write · ((s.listReserve l).window l).size v) (((s.listReserve l).window l).size + 1)
  rw [hvs, ← Row.toList_write_end hsize]
  exact hwork (Row.size_write_end hsize v)

theorem pop (h : s.Sequence l vs) : (s.listPop l).Sequence l vs.dropLast := by
  have hlength := h.size_window
  obtain ⟨row, hrow, hsize, rfl⟩ := h.window
  have hlast : (row.cells.toList.take (s.window l).size).dropLast =
      row.cells.toList.take ((s.window l).size - 1) := by
    rw [List.dropLast_eq_take, ← hlength, List.take_take, Nat.min_eq_left (Nat.sub_le ..)]
  rw [hlast]
  exact of_cells row (Array.getElem?_setIfInBounds_self_of_lt h.lt) hrow
    (Nat.le_trans (Nat.sub_le ..) hsize)

theorem insert (h : s.Sequence l vs) (hi : i ≤ vs.length) (v : Value) :
    (s.listInsert l i v).Sequence l (vs.insertIdx i v) := by
  have hi : i ≤ ((s.listReserve l).window l).size := Nat.le_trans hi (Nat.le_of_eq h.reserve.size_window.symm)
  obtain ⟨row, -, hsize, hvs, hwork⟩ := h.reserve.rework
    (Row.insertAt · i ((s.listReserve l).window l).size v) (((s.listReserve l).window l).size + 1)
  rw [hvs, ← Row.toList_insertAt_take hi hsize]
  exact hwork (Row.size_insertAt hsize i v)

theorem remove (h : s.Sequence l vs) (hi : i < vs.length) :
    (s.listRemove l i).Sequence l (vs.eraseIdx i) := by
  have hi : i < (s.window l).size := Nat.lt_of_lt_of_eq hi h.size_window.symm
  obtain ⟨row, -, hsize, hvs, hwork⟩ := h.rework
    (Row.removeAt · i (s.window l).size) ((s.window l).size - 1)
  rw [hvs, ← Row.toList_removeAt_take hi hsize]
  exact hwork (Row.size_removeAt hsize i)

end Sequence

/-!
# All lists of a store
-/

/-- Work on one list leaves another list as it was. -/
theorem Sequence.other (h : s.Sequence l' us) (hs : s.Separate) (hwork : s.WorksOn l s') (hl : l < s.lists.size)
    (hne : l ≠ l') : s'.Sequence l' us := by
  obtain ⟨row, hrow, -⟩ := h.window
  exact h.of_same (hwork.lists l' hne) (hwork.cells _ (Array.getElem?_eq_some_iff.mp hrow).1
    (hs.row_ne hl h.lt hne).symm)

theorem Sequence.row_lt (h : s.Sequence l vs) : (s.window l).row < s.rows.size := by
  obtain ⟨row, hrow, -⟩ := h.window
  exact (Array.getElem?_eq_some_iff.mp hrow).1

/-- After work on one list, every list has its cells to itself if that one has its cells. -/
theorem Listed.works (hs : s.Listed) (hwork : s.WorksOn l s') (hl : l < s.lists.size)
    (h : s'.Sequence l vs) : s'.Listed where
  lists l' hl' := by
    by_cases hne : l = l'
    · exact ⟨vs, hne ▸ h⟩
    · obtain ⟨us, hus⟩ := hs.lists l' (Nat.lt_of_lt_of_eq hl' hwork.size)
      exact ⟨us, hus.other hs.separate hwork hl hne⟩
  separate := by
    refine hs.separate.works (fun w hw => ?_) hwork hl
    obtain ⟨l', hlt, rfl⟩ := Array.getElem_of_mem hw
    obtain ⟨us, hus⟩ := hs.lists l' hlt
    have hwindow := window_eq hlt
    rw [Array.getElem?_eq_getElem hlt] at hwindow
    rw [Option.some.inj hwindow]
    exact hus.row_lt

theorem listed_empty : Store.empty.Listed :=
  ⟨fun l hl => absurd hl (Nat.not_lt_zero l), fun _ _ _ _ h => by cases h⟩

theorem Sequence.newListIn (h : s.Sequence l vs) (items : Array Value) (capacity : Nat) :
    (s.newListIn items capacity).2.Sequence l vs :=
  h.of_same ((Array.getElem?_push_lt h.lt).trans (Array.getElem?_eq_getElem h.lt).symm)
    ((Array.getElem?_push_lt h.row_lt).trans (Array.getElem?_eq_getElem h.row_lt).symm)

theorem lists_newListIn (s : Store) (items : Array Value) (capacity : Nat) :
    (s.newListIn items capacity).2.Sequence s.lists.size items.toList := by
  have hall : items.toList = items.toList.take items.size := by
    rw [← Array.length_toList, List.take_length]
  rw [hall]
  exact .of_cells ⟨items, capacity⟩ Array.getElem?_push_size Array.getElem?_push_size (Nat.le_refl _)

theorem Listed.newListIn (hs : s.Listed) (items : Array Value) (capacity : Nat) :
    (s.newListIn items capacity).2.Listed where
  lists l hl := by
    have hsize : (s.newListIn items capacity).2.lists.size = s.lists.size + 1 := Array.size_push _
    rcases Nat.lt_or_ge l s.lists.size with hlt | hge
    · obtain ⟨vs, hvs⟩ := hs.lists l hlt
      exact ⟨vs, hvs.newListIn items capacity⟩
    · obtain rfl : l = s.lists.size := by omega
      exact ⟨_, lists_newListIn s items capacity⟩
  separate := by
    refine hs.separate.newListIn (fun w hw => ?_) items capacity
    obtain ⟨l, hl, rfl⟩ := Array.mem_iff_getElem.mp hw
    obtain ⟨vs, hvs⟩ := hs.lists l hl
    have hwindow : s.lists[l] = s.window l :=
      Option.some.inj ((Array.getElem?_eq_getElem hl).symm.trans (window_eq hl))
    rw [hwindow]
    exact hvs.row_lt

/-- Writing a cell leaves every list with its cells. -/
theorem Listed.set (hs : s.Listed) (l : ListId) (i : Nat) (v : Value) : (s.listSet l i v).Listed where
  lists l' hl' := by
    obtain ⟨us, hus⟩ := hs.lists l' hl'
    obtain ⟨row, hrow, hsize, -⟩ := hus.window
    by_cases heq : (s.window l).row = (s.window l').row
    · have hwork : (s.listSet l i v).rows[(s.window l').row]? = some (Row.write row i v) := by
        refine Array.getElem?_modify.trans ?_
        rw [if_pos heq, hrow]
        rfl
      exact ⟨_, .of_cells _ (window_eq hl') hwork (Nat.le_trans hsize (Row.size_write row i v))⟩
    · exact ⟨us, hus.of_same rfl (getElem?_modify_ne heq)⟩
  separate := hs.separate

/-- Whatever the engine does to a store, lists keep their cells to themselves, provided that natives
see to it. -/
theorem Changes.listed {native : Store → Store → Prop} {lent : FrameId → Text → Value → Prop}
    (hnative : ∀ s s', native s s' → s.Listed → s'.Listed) (h : s.Changes native lent s')
    (hs : s.Listed) : s'.Listed := by
  induction h with
  | refl => exact hs
  | tail _ h ih =>
    cases h with
    | list _ capacity => exact ih.newListIn _ capacity
    | set l i => exact ih.set l i _
    | native h => exact hnative _ _ h ih
    | _ => exact ⟨fun l hl => (ih.lists l hl).imp fun vs hvs => hvs.of_same rfl rfl, ih.separate⟩

theorem Sequence.copy (h : s.Sequence l vs) (v : Value) : (s.copy v).2.Sequence l vs := by
  unfold Store.copy
  split
  · exact h.newListIn _ _
  · exact h.of_same rfl rfl
  · split
    · exact h
    · exact h.of_same rfl rfl
  · split
    · exact h
    · exact h.of_same rfl rfl
  · exact h

theorem Listed.copy (hs : s.Listed) (v : Value) : (s.copy v).2.Listed := by
  unfold Store.copy
  split
  · exact hs.newListIn _ _
  · exact ⟨fun l hl => (hs.lists l hl).imp fun vs hvs => hvs.of_same rfl rfl, hs.separate⟩
  · split
    · exact hs
    · exact ⟨fun l hl => (hs.lists l hl).imp fun vs hvs => hvs.of_same rfl rfl, hs.separate⟩
  · split
    · exact hs
    · exact ⟨fun l hl => (hs.lists l hl).imp fun vs hvs => hvs.of_same rfl rfl, hs.separate⟩
  · exact hs

/-- One list has a new sequence of elements, and other lists have the ones that they had. -/
structure Reworked (s : Store) (l : ListId) (s' : Store) (vs : List Value) : Prop where
  list : s'.Sequence l vs
  others : ∀ l' us, l ≠ l' → s.Sequence l' us → s'.Sequence l' us
  listed : s'.Listed

theorem Listed.unchanged (hs : s.Listed) (h : s.Sequence l vs) : s.Reworked l s vs :=
  ⟨h, fun _ _ _ hus => hus, hs⟩

theorem Listed.reworked (hs : s.Listed) (hwork : s.WorksOn l s') (hl : l < s.lists.size)
    (h : s'.Sequence l vs) : s.Reworked l s' vs :=
  ⟨h, fun _ _ hne hus => hus.other hs.separate hwork hl hne, hs.works hwork hl h⟩

/-- A value is copied before a list is worked on. -/
theorem Reworked.of_copy {v : Value} (h : (s.copy v).2.Reworked l s' vs) : s.Reworked l s' vs :=
  ⟨h.list, fun l' us hne hus => h.others l' us hne (hus.copy v), h.listed⟩

end
end Store
end ScriptEngine
