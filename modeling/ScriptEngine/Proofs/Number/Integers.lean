import ScriptEngine.Number.Reading
import ScriptEngine.Proofs.Text.Bytes

/-!
# Integers read back

The decimal text of an integer is read back as that integer, as long as it fits a machine word.
This is what ties the distances that a layout computes to the distances that a run jumps.
-/

namespace ScriptEngine

namespace Text

/-!
## Texts of plain characters
-/

/-- The byte of a character below 128. -/
def plainByte (c : Char) : UInt8 :=
  UInt8.ofNat c.toNat

/-- Whether a character is its own encoding. -/
def IsPlain (c : Char) : Prop :=
  c.toNat ≤ 127

theorem flatMap_utf8EncodeChar {cs : List Char} (h : ∀ c ∈ cs, IsPlain c) :
    cs.flatMap String.utf8EncodeChar = cs.map plainByte := by
  induction cs with
  | nil => rfl
  | cons c rest ih =>
    have hc : c.val.toNat ≤ 127 := h c List.mem_cons_self
    have hrest : ∀ d ∈ rest, IsPlain d := fun d hd => h d (List.mem_cons_of_mem c hd)
    have hcode : String.utf8EncodeChar c = [plainByte c] := by
      simp only [String.utf8EncodeChar, if_pos hc]
      rfl
    rw [List.flatMap_cons, List.map_cons, ih hrest, hcode]
    rfl

theorem toList_ofString_ofList {cs : List Char} (h : ∀ c ∈ cs, IsPlain c) :
    (ofString (String.ofList cs)).toList = cs.map plainByte := by
  show (cs.flatMap String.utf8EncodeChar).toByteArray.data.toList = _
  rw [List.data_toByteArray, flatMap_utf8EncodeChar h]

theorem isPlain_of_isDigit {c : Char} (h : c.isDigit = true) : IsPlain c := by
  have hc : c.val ≤ '9'.val := by
    simp only [Char.isDigit, Bool.and_eq_true, decide_eq_true_eq] at h
    exact h.2
  have hn : c.val.toNat ≤ 57 := UInt32.le_iff_toNat_le.mp hc
  show c.val.toNat ≤ 127
  omega

end Text

namespace Number

/-!
## Digits
-/

theorem isDigit_plainByte {c : Char} (h : c.isDigit = true) :
    isDigit (Text.plainByte c) = true ∧ (Text.plainByte c).toNat - 48 = c.toNat - '0'.toNat := by
  have hc : c.val ≥ '0'.val ∧ c.val ≤ '9'.val := by
    simpa only [Char.isDigit, Bool.and_eq_true, decide_eq_true_eq] using h
  have hlow : 48 ≤ c.val.toNat := UInt32.le_iff_toNat_le.mp hc.1
  have hhigh : c.val.toNat ≤ 57 := UInt32.le_iff_toNat_le.mp hc.2
  have hbyte : (Text.plainByte c).toNat = c.val.toNat := by
    show (UInt8.ofNat c.val.toNat).toNat = c.val.toNat
    rw [UInt8.toNat_ofNat']
    exact Nat.mod_eq_of_lt (by omega)
  constructor
  · simp only [isDigit, Bool.and_eq_true, decide_eq_true_eq]
    constructor <;> rw [UInt8.le_iff_toNat_le, hbyte]
    · exact hlow
    · exact hhigh
  · rw [hbyte]
    rfl

theorem foldl_plainByte {cs : List Char} (h : ∀ c ∈ cs, c.isDigit = true) (n : Nat) :
    (cs.map Text.plainByte).foldl (fun n b => n * 10 + (b.toNat - 48)) n =
      Nat.ofDigitChars 10 cs n := by
  induction cs generalizing n with
  | nil => rfl
  | cons c rest ih =>
    have hc := (isDigit_plainByte (h c List.mem_cons_self)).2
    have hrest : ∀ d ∈ rest, d.isDigit = true := fun d hd => h d (List.mem_cons_of_mem c hd)
    simp only [List.map_cons, List.foldl_cons, hc, ih hrest, Nat.ofDigitChars]
    rw [Nat.mul_comm]

theorem isDigit_of_mem_toDigits {n : Nat} {c : Char} (h : c ∈ Nat.toDigits 10 n) :
    c.isDigit = true :=
  Nat.isDigit_of_mem_toDigits (by decide) (by decide) h

theorem toList_ofNat (n : Nat) :
    (Text.ofNat n).toList = (Nat.toDigits 10 n).map Text.plainByte :=
  Text.toList_ofString_ofList fun _ h => Text.isPlain_of_isDigit (isDigit_of_mem_toDigits h)

theorem readNat?_toDigits (n : Nat) :
    readNat? ((Nat.toDigits 10 n).map Text.plainByte) = some n := by
  have hdigits : ∀ c ∈ Nat.toDigits 10 n, c.isDigit = true := fun _ h => isDigit_of_mem_toDigits h
  have hne : Nat.toDigits 10 n ≠ [] := Nat.toDigits_ne_nil
  have hall : ((Nat.toDigits 10 n).map Text.plainByte).all isDigit = true := by
    rw [List.all_eq_true]
    intro b hb
    obtain ⟨c, hc, rfl⟩ := List.mem_map.mp hb
    exact (isDigit_plainByte (hdigits c hc)).1
  unfold readNat?
  rw [if_neg (by simp [hne, hall]), foldl_plainByte hdigits, Nat.ofDigitChars_ten_toDigits]

/-!
## Signed integers
-/

theorem splitSign_toDigits (n : Nat) :
    splitSign ((Nat.toDigits 10 n).map Text.plainByte) =
      (false, (Nat.toDigits 10 n).map Text.plainByte) := by
  cases h : Nat.toDigits 10 n with
  | nil => rfl
  | cons c rest =>
    have hc : isDigit (Text.plainByte c) = true :=
      (isDigit_plainByte (isDigit_of_mem_toDigits (h ▸ List.mem_cons_self))).1
    simp only [List.map_cons]
    unfold splitSign
    split
    · rename_i heq
      injection heq with hb
      rw [hb] at hc
      exact absurd hc (by decide)
    · rename_i heq
      injection heq with hb
      rw [hb] at hc
      exact absurd hc (by decide)
    · rfl

theorem toList_ofInt (i : Int) :
    (Text.ofInt i).toList =
      (if i < 0 then [45] else []) ++ (Nat.toDigits 10 i.natAbs).map Text.plainByte := by
  unfold Text.ofInt
  split
  · rw [Text.toList_append, toList_ofNat]
    rfl
  · rw [toList_ofNat]
    rfl

theorem readWord?_ofInt {i : Int} (h : fitsWord i = true) : readWord? (Text.ofInt i) = some i := by
  unfold readWord?
  rw [toList_ofInt]
  by_cases hi : i < 0
  · have habs : -(i.natAbs : Int) = i := by omega
    simp only [if_pos hi, List.cons_append, List.nil_append, splitSign, readNat?_toDigits,
      if_true, habs, h]
  · have habs : (i.natAbs : Int) = i := by omega
    simp only [if_neg hi, List.nil_append, splitSign_toDigits, readNat?_toDigits,
      Bool.false_eq_true, if_false, habs, h, if_true]

end Number
end ScriptEngine
