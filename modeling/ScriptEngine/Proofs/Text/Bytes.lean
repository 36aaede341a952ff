import ScriptEngine.Text

/-!
# Texts as lists of bytes

A text is its list of bytes: the two determine each other, and joining texts joins their lists.
-/

namespace ScriptEngine
namespace Text

theorem ofList_toList (t : Text) : ofList t.toList = t := by
  have hbytes : t.toList.toByteArray = t.bytes := by
    apply ByteArray.ext
    rw [List.data_toByteArray]
    exact Array.toArray_toList
  exact congrArg mk hbytes

theorem toList_ofList (l : List UInt8) : (ofList l).toList = l := by
  show l.toByteArray.data.toList = l
  rw [List.data_toByteArray]

theorem toList_inj {s t : Text} (h : s.toList = t.toList) : s = t := by
  rw [← ofList_toList s, h, ofList_toList]

theorem length_toList (t : Text) : t.toList.length = t.size :=
  Array.length_toList

theorem size_ofList (l : List UInt8) : (ofList l).size = l.length := by
  rw [← length_toList, toList_ofList]

theorem toList_append (a b : Text) : (a ++ b).toList = a.toList ++ b.toList := by
  show (a.bytes ++ b.bytes).data.toList = _
  rw [ByteArray.data_append, Array.toList_append]
  rfl

theorem empty_append (t : Text) : empty ++ t = t := by
  have hbytes : ByteArray.empty ++ t.bytes = t.bytes := by simp
  exact congrArg mk hbytes

theorem append_empty (t : Text) : t ++ empty = t :=
  toList_inj (by rw [toList_append]; exact List.append_nil _)

/-- What a check of the list says of its bytes. The statement itself is not decided, since that may go through all
256 bytes. -/
theorem notMem_of_all {l excluded : List UInt8} (h : l.all (· ∉ excluded) = true) : ∀ b ∈ l, b ∉ excluded :=
  fun b hb => of_decide_eq_true (List.all_eq_true.mp h b hb)

/-- A text in one piece is that piece. -/
theorem concat_singleton (t : Text) : concat [t] = t :=
  empty_append t

/-- The bytes of a concatenation are those of its parts in order. -/
theorem toList_concat (parts : List Text) :
    (concat parts).toList = parts.flatMap toList := by
  have hfrom (parts : List Text) (t : Text) :
      (parts.foldl append t).toList = t.toList ++ parts.flatMap toList := by
    induction parts generalizing t with
    | nil => exact (List.append_nil _).symm
    | cons part rest ih =>
      rw [List.foldl_cons, ih, show append t part = t ++ part from rfl, toList_append,
        List.flatMap_cons, List.append_assoc]
  exact hfrom parts empty

/-- The bytes of joined parts are those of the parts and of what stands between them. -/
theorem mem_toList_join {sep : Text} {parts : List Text} {b : UInt8}
    (h : b ∈ (join sep parts).toList) : b ∈ sep.toList ∨ ∃ part ∈ parts, b ∈ part.toList := by
  have hfrom (parts : List Text) (t : Text)
      (h : b ∈ (parts.foldl (fun acc part => acc ++ sep ++ part) t).toList) :
      b ∈ sep.toList ∨ ∃ part ∈ t :: parts, b ∈ part.toList := by
    induction parts generalizing t with
    | nil => exact .inr ⟨t, List.mem_cons_self, h⟩
    | cons part rest ih =>
      rcases ih _ h with hsep | ⟨u, hu, hb⟩
      · exact .inl hsep
      rcases List.mem_cons.mp hu with rfl | hu
      · rw [toList_append, toList_append, List.mem_append, List.mem_append] at hb
        rcases hb with (hb | hb) | hb
        · exact .inr ⟨t, List.mem_cons_self, hb⟩
        · exact .inl hb
        · exact .inr ⟨part, List.mem_cons_of_mem _ List.mem_cons_self, hb⟩
      · exact .inr ⟨u, List.mem_cons_of_mem _ (List.mem_cons_of_mem _ hu), hb⟩
  cases parts with
  | nil => cases h
  | cons part rest => exact hfrom rest part h

theorem isEmpty_iff {t : Text} : t.isEmpty = true ↔ t.toList = [] := by
  rw [isEmpty, beq_iff_eq, ← List.length_eq_zero_iff, length_toList]
  rfl

/-- So many copies of a text, as a list. -/
theorem toList_replicate (n : Nat) (t : Text) :
    (replicate n t).toList = (List.replicate n t.toList).flatten := by
  induction n with
  | zero => rfl
  | succ n ih =>
    have hstep : replicate (n + 1) t = replicate n t ++ t := Nat.fold_succ ..
    rw [hstep, toList_append, ih, List.replicate_succ', List.flatten_append]
    simp only [List.flatten_cons, List.flatten_nil, List.append_nil]

end Text
end ScriptEngine
