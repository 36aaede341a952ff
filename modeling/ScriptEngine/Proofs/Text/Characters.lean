import ScriptEngine.Proofs.Text.Searching

/-!
# Characters of a text

Counting the characters of a text, listing them and cutting the text between them all go by the same
pieces. The cut text is the text again, whatever its bytes are; the listed characters are the text again
just if it is well formed, since a broken byte is listed as the replacement character.
-/

namespace ScriptEngine
namespace Text

open String (utf8EncodeChar)

variable {t : Text} {i : Nat} {c : Char} {rest : List UInt8}

/-!
# Where an encoding stands
-/

theorem encoding_ne_nil (c : Char) : utf8EncodeChar c ≠ [] := by
  rw [← List.length_pos_iff, String.length_utf8EncodeChar]
  exact c.utf8Size_pos

theorem drop_succ_of_drop {b : UInt8} (h : t.toList.drop i = b :: rest) :
    t.byteAt i = b ∧ t.toList.drop (i + 1) = rest := by
  have hi : i < t.size := by
    have hlength := congrArg List.length h
    rw [List.length_drop, length_toList, List.length_cons] at hlength
    omega
  rw [drop_byte hi, List.cons_eq_cons] at h
  exact h

/-- A second byte within its bounds is allowed. -/
theorem secondAllowed_of {b0 b1 : UInt8} (h1 : 0x80 ≤ b1.toNat ∧ b1.toNat ≤ 0xBF)
    (hE0 : b0.toNat = 0xE0 → 0xA0 ≤ b1.toNat) (hED : b0.toNat = 0xED → b1.toNat ≤ 0x9F)
    (hF0 : b0.toNat = 0xF0 → 0x90 ≤ b1.toNat) (hF4 : b0.toNat = 0xF4 → b1.toNat ≤ 0x8F) :
    secondAllowed b0 b1 = true := by
  have hbounds {lo hi : UInt8} (hlo : lo.toNat ≤ b1.toNat) (hhi : b1.toNat ≤ hi.toNat) :
      (decide (lo ≤ b1) && decide (b1 ≤ hi)) = true := by
    rw [Bool.and_eq_true, decide_eq_true_eq, decide_eq_true_eq, UInt8.le_iff_toNat_le,
      UInt8.le_iff_toNat_le]
    exact ⟨hlo, hhi⟩
  unfold secondAllowed
  simp only [beq_iff_eq]
  split
  next hb => exact hbounds (hE0 (by rw [hb]; rfl)) h1.2
  next =>
    split
    next hb => exact hbounds h1.1 (hED (by rw [hb]; rfl))
    next =>
      split
      next hb => exact hbounds (hF0 (by rw [hb]; rfl)) h1.2
      next =>
        split
        next hb => exact hbounds h1.1 (hF4 (by rw [hb]; rfl))
        next => exact isContinuation_iff.mpr h1

theorem not_lt_of_le {b : UInt8} (k : UInt8) (h : k.toNat ≤ b.toNat) : ¬ b < k := fun hless =>
  Nat.not_lt.mpr h (UInt8.lt_iff_toNat_lt.mp hless)

theorem not_stray {b0 : UInt8} (hlow : 0xC2 ≤ b0.toNat) (hhigh : b0.toNat ≤ 0xF4) :
    ¬ (decide (b0 < 0xC2) || decide (0xF4 < b0)) = true := by
  rw [Bool.or_eq_true, decide_eq_true_eq, decide_eq_true_eq]
  exact not_or.mpr ⟨not_lt_of_le 0xC2 hlow, not_lt_of_le b0 hhigh⟩

section
variable (t) (i)

theorem valid_one (h0 : (t.byteAt i).toNat < 0x80) : (t.pieceAt i).valid = true := by
  unfold pieceAt
  dsimp only
  rw [if_pos (UInt8.lt_iff_toNat_lt.mpr h0)]

theorem valid_two (h0 : 0xC2 ≤ (t.byteAt i).toNat ∧ (t.byteAt i).toNat < 0xE0)
    (h1 : 0x80 ≤ (t.byteAt (i + 1)).toNat ∧ (t.byteAt (i + 1)).toNat ≤ 0xBF) :
    (t.pieceAt i).valid = true := by
  unfold pieceAt
  dsimp only
  rw [if_neg (not_lt_of_le 0x80 (Nat.le_trans (by decide) h0.1)), if_neg (not_stray h0.1 (by omega)),
    if_pos (UInt8.lt_iff_toNat_lt.mpr h0.2), if_pos (isContinuation_iff.mpr h1)]

theorem valid_three (h0 : 0xE0 ≤ (t.byteAt i).toNat ∧ (t.byteAt i).toNat < 0xF0)
    (h1 : secondAllowed (t.byteAt i) (t.byteAt (i + 1)) = true)
    (h2 : 0x80 ≤ (t.byteAt (i + 2)).toNat ∧ (t.byteAt (i + 2)).toNat ≤ 0xBF) :
    (t.pieceAt i).valid = true := by
  unfold pieceAt
  dsimp only
  rw [if_neg (not_lt_of_le 0x80 (Nat.le_trans (by decide) h0.1)),
    if_neg (not_stray (by omega) (by omega)), if_neg (not_lt_of_le 0xE0 h0.1),
    if_pos (UInt8.lt_iff_toNat_lt.mpr h0.2),
    if_pos (Bool.and_eq_true_iff.mpr ⟨h1, isContinuation_iff.mpr h2⟩)]

theorem valid_four (h0 : 0xF0 ≤ (t.byteAt i).toNat ∧ (t.byteAt i).toNat ≤ 0xF4)
    (h1 : secondAllowed (t.byteAt i) (t.byteAt (i + 1)) = true)
    (h2 : 0x80 ≤ (t.byteAt (i + 2)).toNat ∧ (t.byteAt (i + 2)).toNat ≤ 0xBF)
    (h3 : 0x80 ≤ (t.byteAt (i + 3)).toNat ∧ (t.byteAt (i + 3)).toNat ≤ 0xBF) :
    (t.pieceAt i).valid = true := by
  unfold pieceAt
  dsimp only
  rw [if_neg (not_lt_of_le 0x80 (Nat.le_trans (by decide) h0.1)),
    if_neg (not_stray (by omega) (by omega)),
    if_neg (not_lt_of_le 0xE0 (Nat.le_trans (by decide) h0.1)), if_neg (not_lt_of_le 0xF0 h0.1),
    if_pos (Bool.and_eq_true_iff.mpr ⟨Bool.and_eq_true_iff.mpr
      ⟨h1, isContinuation_iff.mpr h2⟩, isContinuation_iff.mpr h3⟩)]

end

/-- No encoding is taken for a broken byte. -/
theorem valid_pieceAt (h : t.toList.drop i = utf8EncodeChar c ++ rest) :
    (t.pieceAt i).valid = true := by
  have hchar : c.val.toNat < 0xD800 ∨ 0xDFFF < c.val.toNat ∧ c.val.toNat < 0x110000 := c.valid
  have hbyte {b : UInt8} {n : Nat} (hb : b = UInt8.ofNat n) (hn : n < 256) : b.toNat = n := by
    rw [hb, UInt8.toNat_ofNat', Nat.mod_eq_of_lt hn]
  unfold utf8EncodeChar at h
  dsimp only at h
  split at h
  next hone =>
    obtain ⟨h0, -⟩ := drop_succ_of_drop h
    have h0 := hbyte h0 (by omega)
    exact valid_one t i (by omega)
  next hone =>
    split at h
    next htwo =>
      obtain ⟨h0, h⟩ := drop_succ_of_drop h
      obtain ⟨h1, -⟩ := drop_succ_of_drop h
      have h0 := hbyte h0 (by omega)
      have h1 := hbyte h1 (by omega)
      exact valid_two t i (by omega) (by omega)
    next htwo =>
      split at h
      next hthree =>
        obtain ⟨h0, h⟩ := drop_succ_of_drop h
        obtain ⟨h1, h⟩ := drop_succ_of_drop h
        obtain ⟨h2, -⟩ := drop_succ_of_drop h
        have h0 := hbyte h0 (by omega)
        have h1 := hbyte h1 (by omega)
        have h2 : (t.byteAt (i + 2)).toNat = _ := hbyte h2 (by omega)
        -- neither an overlong form nor a surrogate
        have hsecond : secondAllowed (t.byteAt i) (t.byteAt (i + 1)) = true :=
          secondAllowed_of (by omega) (by omega) (by omega) (by omega) (by omega)
        exact valid_three t i (by omega) hsecond (by omega)
      next hthree =>
        obtain ⟨h0, h⟩ := drop_succ_of_drop h
        obtain ⟨h1, h⟩ := drop_succ_of_drop h
        obtain ⟨h2, h⟩ := drop_succ_of_drop h
        obtain ⟨h3, -⟩ := drop_succ_of_drop h
        have h0 := hbyte h0 (by omega)
        have h1 := hbyte h1 (by omega)
        have h2 : (t.byteAt (i + 2)).toNat = _ := hbyte h2 (by omega)
        have h3 : (t.byteAt (i + 3)).toNat = _ := hbyte h3 (by omega)
        -- neither an overlong form nor a value past the last one
        have hsecond : secondAllowed (t.byteAt i) (t.byteAt (i + 1)) = true :=
          secondAllowed_of (by omega) (by omega) (by omega) (by omega) (by omega)
        exact valid_four t i (by omega) hsecond (by omega) (by omega)

/-- A piece is well formed just where an encoding stands; everywhere else a single byte is cut off. -/
theorem valid_iff (hi : i < t.size) : (t.pieceAt i).valid = true ↔
    ∃ c rest, t.toList.drop i = utf8EncodeChar c ++ rest :=
  ⟨fun h => ⟨_, _, (drop_pieceAt hi).1 h⟩, fun ⟨_, _, h⟩ => valid_pieceAt h⟩

/-- Where an encoding stands, its character is read and all its bytes are passed. -/
theorem pieceAt_encoding (h : t.toList.drop i = utf8EncodeChar c ++ rest) :
    (t.pieceAt i).char = c ∧ t.toList.drop (i + (t.pieceAt i).width) = rest := by
  have hi : i < t.size := by
    have hlength := congrArg List.length h
    rw [List.length_drop, length_toList, List.length_append] at hlength
    have hpos := List.length_pos_iff.mpr (encoding_ne_nil c)
    omega
  have hcut := (drop_pieceAt hi).1 (valid_pieceAt h)
  exact encoding_append_inj (hcut.symm.trans h)

/-!
# The pieces in order
-/

/-- The pieces from a position on, each with the position where it begins. -/
def piecesFrom (t : Text) (i : Nat) : List (Nat × Piece) :=
  if i < t.size then (i, t.pieceAt i) :: piecesFrom t (i + (t.pieceAt i).width) else []
termination_by t.size - i
decreasing_by
  unfold Piece.width
  omega

theorem foldPieces_eq {α : Type} (t : Text) (f : α → Nat → Piece → α) (acc : α) (i : Nat) :
    t.foldPieces f acc i = (t.piecesFrom i).foldl (fun acc p => f acc p.1 p.2) acc := by
  fun_induction piecesFrom t i generalizing acc with
  | case1 i hi ih =>
    unfold foldPieces
    rw [if_pos hi, List.foldl_cons, ← ih]
    rfl
  | case2 i hi =>
    unfold foldPieces
    rw [if_neg hi]
    rfl

theorem length_eq (t : Text) : t.length = (t.piecesFrom 0).length := by
  unfold length
  rw [foldPieces_eq, List.foldl_add_const, Nat.zero_add, Nat.one_mul]

theorem chars_eq (t : Text) : t.chars = (t.piecesFrom 0).map fun p => p.2.char := by
  unfold chars
  rw [foldPieces_eq, List.foldl_push_eq_append]
  simp

theorem explode_eq (t : Text) :
    t.explode = (t.piecesFrom 0).map fun p => t.slice p.1 (p.1 + p.2.width) := by
  unfold explode
  rw [foldPieces_eq, List.foldl_push_eq_append]
  simp

theorem length_chars (t : Text) : t.chars.length = t.length := by
  rw [chars_eq, List.length_map, length_eq]

theorem length_explode (t : Text) : t.explode.length = t.length := by
  rw [explode_eq, List.length_map, length_eq]

/-- The parts of a text from a position on are what the text is from there on. -/
theorem flatMap_slices (t : Text) (i : Nat) :
    (t.piecesFrom i).flatMap (fun p => (t.slice p.1 (p.1 + p.2.width)).toList) =
      t.toList.drop i := by
  fun_induction piecesFrom t i with
  | case1 i hi ih =>
    rw [List.flatMap_cons, ih, toList_slice, List.drop_take, Nat.add_sub_cancel_left,
      ← List.drop_drop, List.take_append_drop]
  | case2 i hi =>
    rw [List.flatMap_nil, List.drop_eq_nil_of_le (by rw [length_toList]; omega)]

/-- Cutting a text between its characters loses nothing. -/
theorem concat_explode (t : Text) : concat t.explode = t := by
  apply toList_inj
  rw [toList_concat, explode_eq, List.flatMap_map]
  exact flatMap_slices t 0

/-- Joining with nothing in between is concatenation. -/
theorem join_empty (parts : List Text) : join empty parts = concat parts := by
  cases parts with
  | nil => rfl
  | cons first rest =>
    have hfirst : append empty first = first := empty_append first
    have happend : (fun acc part : Text => acc ++ empty ++ part) = append := by
      funext acc part
      rw [append_empty]
      rfl
    show rest.foldl (fun acc part => acc ++ empty ++ part) first = rest.foldl append (append empty first)
    rw [hfirst, happend]

/-!
# Well-formed texts
-/

/-- Of encodings only, the characters are listed. -/
theorem chars_of_encodings {cs : List Char} (h : t.toList.drop i = cs.flatMap utf8EncodeChar) :
    (t.piecesFrom i).map (fun p => p.2.char) = cs := by
  induction cs generalizing i with
  | nil =>
    have hend : t.size ≤ i := by
      have hlength := congrArg List.length h
      rw [List.length_drop, length_toList, List.flatMap_nil, List.length_nil] at hlength
      omega
    unfold piecesFrom
    rw [if_neg (Nat.not_lt.mpr hend)]
    rfl
  | cons c cs ih =>
    rw [List.flatMap_cons] at h
    obtain ⟨hchar, hrest⟩ := pieceAt_encoding h
    have hi : i < t.size := by
      have hlength := congrArg List.length h
      rw [List.length_drop, length_toList, List.length_append] at hlength
      have hpos := List.length_pos_iff.mpr (encoding_ne_nil c)
      omega
    unfold piecesFrom
    rw [if_pos hi, List.map_cons, hchar, ih hrest]

theorem toList_concat_chars (t : Text) :
    (concat (t.chars.map ofChar)).toList = t.chars.flatMap utf8EncodeChar := by
  rw [toList_concat, List.flatMap_map]
  exact congrArg (t.chars.flatMap ·) (funext toList_ofChar)

/-- The characters of a text make it up again just if it is well formed. -/
theorem concat_chars_iff (t : Text) :
    concat (t.chars.map ofChar) = t ↔ t.bytes.IsValidUTF8 := by
  constructor
  · intro h
    have hlist := toList_concat_chars t
    rw [h] at hlist
    refine .intro t.chars ?_
    have hbytes := congrArg (fun l => (ofList l).bytes) hlist
    exact (congrArg bytes (ofList_toList t)).symm.trans hbytes
  · rintro ⟨cs, hcs⟩
    have hlist : t.toList = cs.flatMap utf8EncodeChar := by
      unfold toList
      rw [hcs]
      unfold List.utf8Encode
      rw [List.data_toByteArray]
    apply toList_inj
    rw [toList_concat_chars, chars_eq, chars_of_encodings (i := 0) hlist, hlist]

end Text
end ScriptEngine
