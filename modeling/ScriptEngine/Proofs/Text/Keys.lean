import ScriptEngine.Key
import ScriptEngine.Proofs.Text.Searching

/-!
# Keys tell their type and name

A key is cut at the first separator. No beginning of the separator is also an ending of it, so where
it was put between a type and a name it does not help to make up an earlier one, whatever bytes the
type ends in and the name begins with. Hence a key gives back its type and its name, unless the
separator stands in the type, or in the name of a member of no type.
-/

namespace ScriptEngine
namespace Key

/-- The separator stands somewhere in a text. -/
def Separated (t : Text) : Prop :=
  separator.toList <:+: t.toList

instance (t : Text) : Decidable (Separated t) :=
  inferInstanceAs (Decidable (_ <:+: _))

theorem toList_separator : separator.toList = [0xE2, 0x8A, 0x95] := by
  decide

theorem size_separator : separator.size = 3 := by
  rw [← Text.length_toList, toList_separator]
  rfl

variable {name type : Text}

theorem join_typed (h : type ≠ Text.empty) : join name type = type ++ separator ++ name := by
  unfold join
  rw [if_neg]
  intro hempty
  exact h (Text.toList_inj (Text.isEmpty_iff.mp hempty))

theorem join_untyped (name : Text) : join name Text.empty = name :=
  rfl

/-- The separator stands in the key of a member. -/
theorem join_ne {t : Text} (ht : (0xE2 : UInt8) ∉ t.toList) (name : Text) {type : Text}
    (htype : type.isEmpty = false) : join name type ≠ t := by
  intro heq
  refine ht ?_
  rw [← heq]
  unfold join
  rw [if_neg (by rw [htype]; exact Bool.false_ne_true), Text.toList_append, Text.toList_append, toList_separator]
  exact List.mem_append_left _ (List.mem_append_right _ List.mem_cons_self)

/-- Keys of modules do not begin with a dollar sign. -/
theorem module_ne {t : Text} (ht : t.toList.head? = some 0x24) (path : Text) : module path ≠ t := by
  intro heq
  have hmodule : (Text.ofString "module:").toList = [109, 111, 100, 117, 108, 101, 58] := by decide
  rw [← heq, module, Text.toList_append, hmodule] at ht
  exact absurd (Option.some.inj ht) (by decide)

/-- The first bytes of a text followed by a separator are a separator only if they are among those of
the text. -/
theorem separator_stands_of_append {l r : List UInt8} (hl : l ≠ [])
    (h : separator.toList <+: l ++ (separator.toList ++ r)) : separator.toList <+: l := by
  rw [toList_separator] at h ⊢
  match l, hl with
  | [a], _ =>
    simp only [List.cons_append, List.nil_append, List.cons_prefix_cons] at h
    exact absurd h.2.1 (by decide)
  | [a, b], _ =>
    simp only [List.cons_append, List.nil_append, List.cons_prefix_cons] at h
    exact absurd h.2.2.1 (by decide)
  | a :: b :: c :: rest, _ =>
    simp only [List.cons_append, List.cons_prefix_cons] at h ⊢
    exact ⟨h.1, h.2.1, h.2.2.1, List.nil_prefix⟩

/-- In the key of a member of a type the first separator is the one behind the type. -/
theorem find?_typed (h : ¬ Separated type) (name : Text) :
    (type ++ separator ++ name).find? separator = some type.size := by
  have hkey : (type ++ separator ++ name).toList =
      type.toList ++ (separator.toList ++ name.toList) := by
    rw [Text.toList_append, Text.toList_append, List.append_assoc]
  have hthere : separator.toList <+: (type ++ separator ++ name).toList.drop type.size := by
    rw [hkey, ← Text.length_toList, List.drop_left]
    exact List.prefix_append _ _
  cases hfind : (type ++ separator ++ name).find? separator with
  | none => exact absurd (Text.infix_of_prefix_drop hthere) (Text.find?_eq_none hfind)
  | some k =>
    obtain ⟨-, hstands, hfirst⟩ := Text.find?_eq_some hfind
    rcases Nat.lt_trichotomy k type.size with hless | rfl | hmore
    · -- An earlier one would begin in the type, so it would lie within it.
      rw [← Text.length_toList] at hless
      rw [hkey, List.drop_append_of_le_length (Nat.le_of_lt hless)] at hstands
      have hrest : type.toList.drop k ≠ [] := mt List.drop_eq_nil_iff.mp (by omega)
      exact absurd (Text.infix_of_prefix_drop (separator_stands_of_append hrest hstands)) h
    · rfl
    · exact absurd hthere (hfirst _ hmore)

theorem split_typed (h : ¬ Separated type) (name : Text) :
    split (type ++ separator ++ name) = (type, name) := by
  have hkey : (type ++ separator ++ name).toList =
      (type.toList ++ separator.toList) ++ name.toList := by
    rw [Text.toList_append, Text.toList_append]
  unfold split
  rw [find?_typed h]
  refine Prod.ext (Text.toList_inj ?_) (Text.toList_inj ?_)
  · rw [Text.toList_take, hkey, List.append_assoc, ← Text.length_toList, List.take_left]
  · rw [Text.toList_drop, hkey, ← Text.length_toList, ← Text.length_toList, ← List.length_append,
      List.drop_left]

theorem split_plain (h : ¬ Separated name) : split name = (Text.empty, name) := by
  unfold split
  cases hfind : name.find? separator with
  | none => rfl
  | some k => exact absurd (Text.infix_of_prefix_drop (Text.find?_eq_some hfind).2.1) h

/-- Cutting a text that the separator stands in gives a type and a name that are shorter. -/
theorem split_separated {key : Text} (h : Separated key) :
    (split key).1.size + separator.size + (split key).2.size = key.size := by
  unfold split
  cases hfind : key.find? separator with
  | none => exact absurd h (Text.find?_eq_none hfind)
  | some k =>
    obtain ⟨-, hstands, -⟩ := Text.find?_eq_some hfind
    have hlength := hstands.length_le
    rw [List.length_drop, Text.length_toList, Text.length_toList] at hlength
    dsimp only
    rw [Text.size_take, Text.size_drop]
    rw [size_separator] at hlength ⊢
    omega

/-- If the separator stands in the type, the key is cut before the end of the type. -/
theorem split_early (h : Separated type) (name : Text) :
    (split (type ++ separator ++ name)).1.size < type.size := by
  unfold split
  obtain ⟨before, behind, heq⟩ := h
  have hlength := congrArg List.length heq
  simp only [List.length_append, Text.length_toList, size_separator] at hlength
  have hthere : separator.toList <+: (type ++ separator ++ name).toList.drop before.length := by
    rw [Text.toList_append, Text.toList_append, ← heq, List.append_assoc, List.append_assoc,
      List.append_assoc, List.drop_left]
    exact List.prefix_append _ _
  cases hfind : (type ++ separator ++ name).find? separator with
  | none => exact absurd (Text.infix_of_prefix_drop hthere) (Text.find?_eq_none hfind)
  | some k =>
    obtain ⟨-, -, hfirst⟩ := Text.find?_eq_some hfind
    have hle : k ≤ before.length := Nat.le_of_not_lt fun hmore => hfirst _ hmore hthere
    dsimp only
    rw [Text.size_take]
    omega

/-- A key gives back the type and the name that it was made of if and only if the separator does not
stand in the type, or in a name without a type. -/
theorem split_join_iff (name type : Text) :
    split (join name type) = (type, name) ↔
      type ≠ Text.empty ∧ ¬ Separated type ∨ type = Text.empty ∧ ¬ Separated name := by
  by_cases htype : type = Text.empty
  · subst htype
    rw [join_untyped]
    constructor
    · refine fun hsplit => .inr ⟨rfl, fun hseparated => ?_⟩
      have hsizes := split_separated hseparated
      rw [hsplit, size_separator] at hsizes
      dsimp only at hsizes
      omega
    · rintro (⟨hne, -⟩ | ⟨-, hclear⟩)
      · exact absurd rfl hne
      · exact split_plain hclear
  · rw [join_typed htype]
    constructor
    · refine fun hsplit => .inl ⟨htype, fun hseparated => ?_⟩
      have hearly := split_early hseparated name
      rw [hsplit] at hearly
      exact Nat.lt_irrefl _ hearly
    · rintro (⟨-, hclear⟩ | ⟨hempty, -⟩)
      · exact split_typed hclear name
      · exact absurd hempty htype

/-- A key is cut into its type and its name exactly if the separator does not stand in the type, or in
the name of a member of no type; and members for which it does not have different keys. -/
theorem members_told_by_key :
    (∀ name type : Text, split (join name type) = (type, name) ↔
      type ≠ Text.empty ∧ ¬ Separated type ∨ type = Text.empty ∧ ¬ Separated name) ∧
    ∀ name type name' type' : Text, ¬ Separated type → ¬ Separated type' →
      (type = Text.empty → ¬ Separated name) → (type' = Text.empty → ¬ Separated name') →
      join name type = join name' type' → name = name' ∧ type = type' := by
  refine ⟨split_join_iff, fun name type name' type' htype htype' hname hname' hjoin => ?_⟩
  have hdecodes : ∀ name type : Text, ¬ Separated type → (type = Text.empty → ¬ Separated name) →
      split (join name type) = (type, name) := by
    intro name type htype hname
    refine (split_join_iff name type).mpr ?_
    by_cases hempty : type = Text.empty
    · exact .inr ⟨hempty, hname hempty⟩
    · exact .inl ⟨hempty, htype⟩
  have hsame : (type, name) = (type', name') := by
    rw [← hdecodes name type htype hname, hjoin, hdecodes name' type' htype' hname']
  obtain ⟨hsametype, hsamename⟩ := Prod.mk.inj hsame
  exact ⟨hsamename, hsametype⟩

/-- A type that ends in the first two bytes of the separator, and a name that begins with its last
two. -/
theorem members_told_by_key_joint :
    ¬ Separated (.ofList [0x61, 0xE2, 0x8A]) ∧
      split (join (.ofList [0x8A, 0x95, 0x62]) (.ofList [0x61, 0xE2, 0x8A])) =
        (.ofList [0x61, 0xE2, 0x8A], .ofList [0x8A, 0x95, 0x62]) ∧
      Text.ofList [0x8A, 0x95, 0x62] = .ofList [0x8A, 0x95, 0x62] := by
  have hclear : ¬ Separated (.ofList [0x61, 0xE2, 0x8A]) := by decide
  have htyped : Text.ofList [0x61, 0xE2, 0x8A] ≠ Text.empty := by decide
  refine ⟨hclear, (members_told_by_key.1 _ _).mpr (.inl ⟨htyped, hclear⟩), ?_⟩
  exact (members_told_by_key.2 _ (.ofList [0x61, 0xE2, 0x8A]) _ (.ofList [0x61, 0xE2, 0x8A]) hclear
    hclear (fun h => absurd h htyped) (fun h => absurd h htyped) rfl).1

end Key
end ScriptEngine
