import ScriptEngine.Proofs.Number.Integers
import ScriptEngine.Text.Utf8

/-!
# Pieces of a byte string

A text falls into well-formed encodings and broken bytes. The bytes of a well-formed piece are the
encoding of its character, a broken byte is none of the plain ones, and an encoding says by itself
where it ends.
-/

namespace ScriptEngine
namespace Text

open String (utf8EncodeChar)

theorem toList_ofChar (c : Char) : (ofChar c).toList = utf8EncodeChar c := by
  show ([c].flatMap utf8EncodeChar).toByteArray.data.toList = _
  rw [List.data_toByteArray, List.flatMap_singleton]

/-- An encoding is no proper beginning of another one. -/
theorem encoding_append_inj {c d : Char} {r r' : List UInt8}
    (h : utf8EncodeChar c ++ r = utf8EncodeChar d ++ r') : c = d ∧ r = r' := by
  have hread (c : Char) (r : List UInt8) :
      (utf8EncodeChar c ++ r).toByteArray.utf8DecodeChar? 0 = some c := by
    rw [List.toByteArray_append]
    exact ByteArray.utf8DecodeChar?_utf8EncodeChar_append
  have hcd : c = d := by
    have hc := hread c r
    rw [h, hread d r'] at hc
    exact (Option.some.inj hc).symm
  subst hcd
  exact ⟨rfl, List.append_cancel_left h⟩

/-- The plain bytes of an encoding are the plain characters. -/
theorem plain_of_mem_encoding {c : Char} {b : UInt8} (hmem : b ∈ utf8EncodeChar c) (hb : b < 0x80) :
    c.toNat = b.toNat := by
  have hb : b.toNat < 128 := UInt8.lt_iff_toNat_lt.mp hb
  show c.val.toNat = b.toNat
  unfold utf8EncodeChar at hmem
  dsimp only at hmem
  split at hmem
  · obtain rfl := List.mem_singleton.mp hmem
    rw [UInt8.toNat_ofNat']
    omega
  · have hhigh : 128 ≤ b.toNat := by
      split at hmem
      · simp only [List.mem_cons, List.not_mem_nil, or_false] at hmem
        rcases hmem with rfl | rfl
        all_goals
          rw [UInt8.toNat_ofNat']
          omega
      · split at hmem
        · simp only [List.mem_cons, List.not_mem_nil, or_false] at hmem
          rcases hmem with rfl | rfl | rfl
          all_goals
            rw [UInt8.toNat_ofNat']
            omega
        · simp only [List.mem_cons, List.not_mem_nil, or_false] at hmem
          rcases hmem with rfl | rfl | rfl | rfl
          all_goals
            rw [UInt8.toNat_ofNat']
            omega
    omega

/-!
## Bytes and characters
-/

/-- Code points below the surrogates and above them have a character each. -/
theorem toNat_charOfNat {n : Nat} (h : n < 0xD800 ∨ 0xDFFF < n ∧ n < 0x110000) :
    (Char.ofNat n).val.toNat = n := by
  have hvalid : n.isValidChar := h
  unfold Char.ofNat
  rw [dif_pos hvalid]
  rfl

theorem encoding_one {b0 : UInt8} (h0 : b0.toNat < 0x80) :
    utf8EncodeChar (Char.ofNat b0.toNat) = [b0] := by
  have hval := toNat_charOfNat (n := b0.toNat) (.inl (by omega))
  unfold utf8EncodeChar
  simp only [hval]
  rw [if_pos (by omega), UInt8.ofNat_toNat]

theorem encoding_two {b0 b1 : UInt8} (h0 : 0xC2 ≤ b0.toNat ∧ b0.toNat < 0xE0)
    (h1 : 0x80 ≤ b1.toNat ∧ b1.toNat ≤ 0xBF) :
    utf8EncodeChar (Char.ofNat (b0.toNat % 32 * 64 + b1.toNat % 64)) = [b0, b1] := by
  have hval := toNat_charOfNat (n := b0.toNat % 32 * 64 + b1.toNat % 64) (.inl (by omega))
  unfold utf8EncodeChar
  simp only [hval]
  rw [if_neg (by omega), if_pos (by omega)]
  congr 1
  · rw [← UInt8.toNat_inj, UInt8.toNat_ofNat']
    omega
  · congr 1
    rw [← UInt8.toNat_inj, UInt8.toNat_ofNat']
    omega

theorem encoding_three {b0 b1 b2 : UInt8} (h0 : 0xE0 ≤ b0.toNat ∧ b0.toNat < 0xF0)
    (h1 : 0x80 ≤ b1.toNat ∧ b1.toNat ≤ 0xBF) (h2 : 0x80 ≤ b2.toNat ∧ b2.toNat ≤ 0xBF)
    (hlow : b0.toNat = 0xE0 → 0xA0 ≤ b1.toNat) (hsurrogate : b0.toNat = 0xED → b1.toNat ≤ 0x9F) :
    utf8EncodeChar
        (Char.ofNat (b0.toNat % 16 * 4096 + b1.toNat % 64 * 64 + b2.toNat % 64)) =
      [b0, b1, b2] := by
  have hval := toNat_charOfNat (n := b0.toNat % 16 * 4096 + b1.toNat % 64 * 64 + b2.toNat % 64)
    (by omega)
  unfold utf8EncodeChar
  simp only [hval]
  rw [if_neg (by omega), if_neg (by omega), if_pos (by omega)]
  congr 1
  · rw [← UInt8.toNat_inj, UInt8.toNat_ofNat']
    omega
  congr 1
  · rw [← UInt8.toNat_inj, UInt8.toNat_ofNat']
    omega
  congr 1
  rw [← UInt8.toNat_inj, UInt8.toNat_ofNat']
  omega

theorem encoding_four {b0 b1 b2 b3 : UInt8} (h0 : 0xF0 ≤ b0.toNat ∧ b0.toNat ≤ 0xF4)
    (h1 : 0x80 ≤ b1.toNat ∧ b1.toNat ≤ 0xBF) (h2 : 0x80 ≤ b2.toNat ∧ b2.toNat ≤ 0xBF)
    (h3 : 0x80 ≤ b3.toNat ∧ b3.toNat ≤ 0xBF) (hlow : b0.toNat = 0xF0 → 0x90 ≤ b1.toNat)
    (hlast : b0.toNat = 0xF4 → b1.toNat ≤ 0x8F) :
    utf8EncodeChar
        (Char.ofNat (b0.toNat % 8 * 262144 + b1.toNat % 64 * 4096 + b2.toNat % 64 * 64 +
          b3.toNat % 64)) =
      [b0, b1, b2, b3] := by
  have hval := toNat_charOfNat
    (n := b0.toNat % 8 * 262144 + b1.toNat % 64 * 4096 + b2.toNat % 64 * 64 + b3.toNat % 64)
    (by omega)
  unfold utf8EncodeChar
  simp only [hval]
  rw [if_neg (by omega), if_neg (by omega), if_neg (by omega)]
  congr 1
  · rw [← UInt8.toNat_inj, UInt8.toNat_ofNat']
    omega
  congr 1
  · rw [← UInt8.toNat_inj, UInt8.toNat_ofNat']
    omega
  congr 1
  · rw [← UInt8.toNat_inj, UInt8.toNat_ofNat']
    omega
  congr 1
  rw [← UInt8.toNat_inj, UInt8.toNat_ofNat']
  omega

theorem isContinuation_iff {b : UInt8} :
    isContinuation b = true ↔ 0x80 ≤ b.toNat ∧ b.toNat ≤ 0xBF := by
  unfold isContinuation
  rw [Bool.and_eq_true, decide_eq_true_eq, decide_eq_true_eq, UInt8.le_iff_toNat_le,
    UInt8.le_iff_toNat_le]
  rfl

/-- What the second byte of a longer encoding is held to. -/
theorem secondAllowed_spec {b0 b1 : UInt8} (h : secondAllowed b0 b1 = true) :
    (0x80 ≤ b1.toNat ∧ b1.toNat ≤ 0xBF) ∧ (b0.toNat = 0xE0 → 0xA0 ≤ b1.toNat) ∧
      (b0.toNat = 0xED → b1.toNat ≤ 0x9F) ∧ (b0.toNat = 0xF0 → 0x90 ≤ b1.toNat) ∧
      (b0.toNat = 0xF4 → b1.toNat ≤ 0x8F) := by
  have hne {n : UInt8} (hb : ¬ b0 = n) : b0.toNat ≠ n.toNat := fun e => hb (UInt8.toNat_inj.mp e)
  unfold secondAllowed at h
  simp only [beq_iff_eq] at h
  split at h
  next hb =>
    subst hb
    simp only [Bool.and_eq_true, decide_eq_true_eq, UInt8.le_iff_toNat_le] at h
    simp only [UInt8.reduceToNat] at h ⊢
    omega
  next hE0 =>
    split at h
    next hb =>
      subst hb
      simp only [Bool.and_eq_true, decide_eq_true_eq, UInt8.le_iff_toNat_le] at h
      simp only [UInt8.reduceToNat] at h ⊢
      omega
    next hED =>
      split at h
      next hb =>
        subst hb
        simp only [Bool.and_eq_true, decide_eq_true_eq, UInt8.le_iff_toNat_le] at h
        simp only [UInt8.reduceToNat] at h ⊢
        omega
      next hF0 =>
        split at h
        next hb =>
          subst hb
          simp only [Bool.and_eq_true, decide_eq_true_eq, UInt8.le_iff_toNat_le] at h
          simp only [UInt8.reduceToNat] at h ⊢
          omega
        next hF4 =>
          exact ⟨isContinuation_iff.mp h, fun e => absurd e (hne hE0), fun e => absurd e (hne hED),
            fun e => absurd e (hne hF0), fun e => absurd e (hne hF4)⟩

/-!
## Cutting a piece off
-/

theorem drop_byte {t : Text} {i : Nat} (h : i < t.size) :
    t.toList.drop i = t.byteAt i :: t.toList.drop (i + 1) := by
  have hlen : i < t.toList.length := by
    rw [show t.toList.length = t.size from Array.length_toList]
    exact h
  rw [List.drop_eq_getElem_cons hlen]
  congr 1
  unfold byteAt
  rw [dif_pos (show i < t.bytes.size from h)]
  rfl

/-- There is nothing but zeros beyond the end. -/
theorem lt_size_of_byteAt {t : Text} {i : Nat} (h : 0 < (t.byteAt i).toNat) : i < t.size := by
  by_cases hi : i < t.size
  · exact hi
  · have hzero : t.byteAt i = 0 := dif_neg hi
    rw [hzero] at h
    exact absurd h (by decide)

/-- A piece is the encoding of its character, or a single byte that is not plain. -/
theorem drop_pieceAt {t : Text} {i : Nat} (hi : i < t.size) :
    ((t.pieceAt i).valid = true → t.toList.drop i =
        utf8EncodeChar (t.pieceAt i).char ++ t.toList.drop (i + (t.pieceAt i).width)) ∧
      ((t.pieceAt i).valid = false → t.toList.drop i =
        t.byteAt i :: t.toList.drop (i + (t.pieceAt i).width) ∧ 0x80 ≤ (t.byteAt i).toNat) := by
  have hbroken (h : 0x80 ≤ (t.byteAt i).toNat) :
      (Piece.broken.valid = true → t.toList.drop i =
          utf8EncodeChar Piece.broken.char ++ t.toList.drop (i + Piece.broken.width)) ∧
        (Piece.broken.valid = false → t.toList.drop i =
          t.byteAt i :: t.toList.drop (i + Piece.broken.width) ∧ 0x80 ≤ (t.byteAt i).toNat) :=
    ⟨nofun, fun _ => ⟨drop_byte hi, h⟩⟩
  have hcut := drop_byte hi
  unfold pieceAt
  dsimp only
  split
  next h0 =>
    have h0 : (t.byteAt i).toNat < 128 := UInt8.lt_iff_toNat_lt.mp h0
    exact ⟨fun _ => by rw [encoding_one h0]; exact hcut, nofun⟩
  next hplain =>
    have hplain : 0x80 ≤ (t.byteAt i).toNat := by
      rw [UInt8.lt_iff_toNat_lt] at hplain
      exact Nat.le_of_not_lt hplain
    split
    · exact hbroken hplain
    next hlead =>
      have hlead : 0xC2 ≤ (t.byteAt i).toNat ∧ (t.byteAt i).toNat ≤ 0xF4 := by
        simp only [Bool.or_eq_true, decide_eq_true_eq, not_or, UInt8.lt_iff_toNat_lt] at hlead
        exact ⟨Nat.le_of_not_lt hlead.1, Nat.le_of_not_lt hlead.2⟩
      split
      next h0 =>
        have h0 : (t.byteAt i).toNat < 0xE0 := UInt8.lt_iff_toNat_lt.mp h0
        split
        next h1 =>
          have h1 := isContinuation_iff.mp h1
          refine ⟨fun _ => ?_, nofun⟩
          show _ = utf8EncodeChar (Char.ofNat ((t.byteAt i).toNat % 32 * 64 +
            (t.byteAt (i + 1)).toNat % 64)) ++ t.toList.drop (i + 2)
          have hcut1 := drop_byte (lt_size_of_byteAt (t := t) (i := i + 1) (by omega))
          rw [encoding_two ⟨hlead.1, h0⟩ h1, hcut, hcut1]
          rfl
        · exact hbroken hplain
      next hthree =>
        have hthree : 0xE0 ≤ (t.byteAt i).toNat := by
          rw [UInt8.lt_iff_toNat_lt] at hthree
          exact Nat.le_of_not_lt hthree
        split
        next h0 =>
          have h0 : (t.byteAt i).toNat < 0xF0 := UInt8.lt_iff_toNat_lt.mp h0
          split
          next h =>
            obtain ⟨hsecond, h2⟩ := Bool.and_eq_true_iff.mp h
            obtain ⟨h1, hlow, hsurrogate, -, -⟩ := secondAllowed_spec hsecond
            have h2 := isContinuation_iff.mp h2
            refine ⟨fun _ => ?_, nofun⟩
            show _ = utf8EncodeChar (Char.ofNat ((t.byteAt i).toNat % 16 * 4096 +
              (t.byteAt (i + 1)).toNat % 64 * 64 + (t.byteAt (i + 2)).toNat % 64)) ++
                t.toList.drop (i + 3)
            have hcut1 := drop_byte (lt_size_of_byteAt (t := t) (i := i + 1) (by omega))
            have hcut2 := drop_byte (lt_size_of_byteAt (t := t) (i := i + 2) (by omega))
            rw [encoding_three ⟨hthree, h0⟩ h1 h2 hlow hsurrogate, hcut, hcut1, hcut2]
            rfl
          · exact hbroken hplain
        next hfour =>
          have hfour : 0xF0 ≤ (t.byteAt i).toNat := by
            rw [UInt8.lt_iff_toNat_lt] at hfour
            exact Nat.le_of_not_lt hfour
          split
          next h =>
            obtain ⟨h12, h3⟩ := Bool.and_eq_true_iff.mp h
            obtain ⟨hsecond, h2⟩ := Bool.and_eq_true_iff.mp h12
            obtain ⟨h1, -, -, hlow, hlast⟩ := secondAllowed_spec hsecond
            have h2 := isContinuation_iff.mp h2
            have h3 := isContinuation_iff.mp h3
            refine ⟨fun _ => ?_, nofun⟩
            show _ = utf8EncodeChar (Char.ofNat ((t.byteAt i).toNat % 8 * 262144 +
              (t.byteAt (i + 1)).toNat % 64 * 4096 + (t.byteAt (i + 2)).toNat % 64 * 64 +
                (t.byteAt (i + 3)).toNat % 64)) ++ t.toList.drop (i + 4)
            have hcut1 := drop_byte (lt_size_of_byteAt (t := t) (i := i + 1) (by omega))
            have hcut2 := drop_byte (lt_size_of_byteAt (t := t) (i := i + 2) (by omega))
            have hcut3 := drop_byte (lt_size_of_byteAt (t := t) (i := i + 3) (by omega))
            rw [encoding_four ⟨hfour, hlead.2⟩ h1 h2 h3 hlow hlast, hcut, hcut1, hcut2, hcut3]
            rfl
          · exact hbroken hplain

end Text
end ScriptEngine
