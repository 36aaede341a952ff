import ScriptEngine.Proofs.Number.Bits
import ScriptEngine.Proofs.Number.Rounding
import Mathlib.Algebra.Order.Floor.Ring
import Mathlib.Data.Rat.Floor

/-!
# The values of doubles

A finite double stands for a ratio. Doubles are compared as these ratios are, rounding a double up
gives the ceiling of its ratio, and the machine word that a double is truncated to is the integer part
of its ratio, if there is such a word.
-/

namespace ScriptEngine
namespace Number

open Float.Model (Format UnpackedFloat totalExponent)
open Float.Model.UnpackedFloat

/-- A ratio with a sign. -/
def signed (negative : Bool) (r : ℚ) : ℚ :=
  if negative then -r else r

/-- The ratio that a finite double stands for. -/
def value? (x : Float) : Option ℚ :=
  match anatomy x with
  | .finite negative significand exponent => some (signed negative (significand * 2 ^ exponent))
  | _ => none

section
variable {x y : Float} {q r : ℚ} {negative : Bool} {significand : Nat} {exponent : Int}

theorem value?_of_finite (h : anatomy x = .finite negative significand exponent) :
    value? x = some (signed negative (significand * 2 ^ exponent)) := by
  unfold value?
  rw [h]

theorem finite_of_value? (h : value? x = some q) :
    ∃ negative significand exponent, anatomy x = .finite negative significand exponent ∧
      q = signed negative (significand * 2 ^ exponent) := by
  unfold value? at h
  cases hx : anatomy x with
  | finite negative significand exponent =>
    rw [hx] at h
    exact ⟨negative, significand, exponent, rfl, (Option.some.inj h).symm⟩
  | infinite negative =>
    rw [hx] at h
    cases h
  | undefined =>
    rw [hx] at h
    cases h

theorem value?_of_infinite (h : anatomy x = .infinite negative) : value? x = none := by
  unfold value?
  rw [h]

end

/-!
# The standard library's reading
-/

/-- The sign of the standard library's reading. -/
def signOf (negative : Bool) : Sign :=
  if negative then .negative else .positive

/-- The standard library's reading of a double, from its anatomy. -/
def unpacked : Anatomy → Float.Model.UnpackedFloat
  | .finite negative significand exponent =>
    if h : 0 < significand then .finite (signOf negative) significand exponent h
    else .zero (signOf negative)
  | .infinite negative => .infinity (signOf negative)
  | .undefined => .notANumber

/-- The standard library reads a finite double as one, or as a zero. -/
theorem unpacked_finite (t : Bool) (n : Nat) (f : Int) :
    (∃ h, unpacked (.finite t n f) = .finite (signOf t) n f h) ∨
      unpacked (.finite t n f) = .zero (signOf t) := by
  unfold unpacked
  by_cases h : 0 < n
  · exact .inl ⟨h, dif_pos h⟩
  · exact .inr (dif_neg h)

theorem signOf_bits (v : BitVec Format.binary64.numBits) :
    Sign.ofBitVec (unpackSign v) = signOf (decide (2 ^ 63 ≤ v.toNat)) := by
  have hlt : v.toNat < 2 ^ 64 := v.isLt
  have hsign := toNat_unpackSign v
  by_cases h : 2 ^ 63 ≤ v.toNat
  · have hone : unpackSign v = 1#1 := by
      apply BitVec.eq_of_toNat_eq
      rw [hsign]
      show v.toNat / 2 ^ 63 = 1
      omega
    rw [hone, decide_eq_true h]
    rfl
  · have hzero : unpackSign v = 0#1 := by
      apply BitVec.eq_of_toNat_eq
      rw [hsign]
      show v.toNat / 2 ^ 63 = 0
      omega
    rw [hzero, decide_eq_false h]
    rfl

theorem unpack_anatomyOf (v : BitVec Format.binary64.numBits) :
    unpack Format.binary64 v = unpacked (anatomyOf v.toNat) := by
  have hhidden := hiddenBit_eq
  have hexponent : (unpackExponent v).toNat = fieldOf v.toNat := toNat_unpackExponent v
  have hfraction := toNat_unpackMantissa v
  have hfull : unpackExponent v = -1#_ ↔ fieldOf v.toNat = 2047 := by
    rw [← BitVec.toNat_inj, hexponent]
    exact Iff.rfl
  have hleast : unpackExponent v = 0#_ ↔ fieldOf v.toNat = 0 := by
    rw [← BitVec.toNat_inj, hexponent]
    exact Iff.rfl
  have hnone : unpackMantissa v = 0#_ ↔ v.toNat % 2 ^ 52 = 0 := by
    rw [← BitVec.toNat_inj, hfraction]
    exact Iff.rfl
  have hwhole : (1#1 ++ unpackMantissa v).toNat = v.toNat % 2 ^ 52 + hiddenBit := by
    rw [BitVec.toNat_append, ← Nat.shiftLeft_add_eq_or_of_lt (unpackMantissa v).isLt, hfraction,
      Nat.add_comm]
    rfl
  unfold unpack anatomyOf
  dsimp only
  rw [signOf_bits, hexponent]
  by_cases h₁ : fieldOf v.toNat = 2047
  · rw [if_pos (hfull.mpr h₁), if_pos h₁]
    by_cases h₂ : v.toNat % 2 ^ 52 = 0
    · rw [if_pos (hnone.mpr h₂), if_pos h₂]
      rfl
    · rw [if_neg (mt hnone.mp h₂), if_neg h₂]
      rfl
  rw [if_neg (mt hfull.mp h₁), if_neg h₁]
  by_cases h₂ : fieldOf v.toNat = 0
  · rw [if_pos (hleast.mpr h₂), if_pos h₂]
    unfold unpacked
    dsimp only
    by_cases h₃ : v.toNat % 2 ^ 52 = 0
    · rw [dif_pos (hnone.mpr h₃), dif_neg (by omega)]
    · rw [dif_neg (mt hnone.mp h₃), dif_pos (by omega), h₂]
      congr 1
  · rw [if_neg (mt hleast.mp h₂), if_neg h₂]
    unfold unpacked
    dsimp only
    rw [dif_pos (by omega)]
    congr 1

/-- The standard library reads a double as it is read here. -/
theorem unpack_eq (x : Float) : x.toModel.unpack = unpacked (anatomy x) := by
  rw [anatomy_eq]
  exact unpack_anatomyOf x.toModel.toBits.toBitVec

/-!
# Comparing doubles
-/

theorem signed_zero (negative : Bool) : signed negative 0 = 0 := by
  cases negative <;> simp [signed]

/-- Of two significands with their exponents, the one with the greater exponent stands for more. -/
theorem scaled_lt_of_exponent_lt {m n : Nat} {e f : Int} (hm : Canonical m e) (hn : Canonical n f)
    (h : e < f) : (m : ℚ) * 2 ^ e < n * 2 ^ f := by
  have hhidden := hiddenBit_eq
  have hsmall : (m : ℚ) < 2 ^ 53 := by
    have hlt : m < 2 ^ 53 := by
      have := hm.small
      omega
    exact_mod_cast hlt
  have hlarge : (2 : ℚ) ^ 52 ≤ n := by
    have hle : 2 ^ 52 ≤ n := by
      rcases hn.normal with hle | heq
      · omega
      · have := hm.least
        omega
    exact_mod_cast hle
  calc (m : ℚ) * 2 ^ e < 2 ^ 53 * 2 ^ e := by gcongr
    _ = 2 ^ 52 * 2 ^ (e + 1) := by
      rw [zpow_add₀ (by norm_num), zpow_one]
      ring
    _ ≤ 2 ^ 52 * 2 ^ f := by
      gcongr
      · norm_num
      · omega
    _ ≤ n * 2 ^ f := by gcongr

/-- Significands in lowest form are compared by exponent first. -/
theorem compare_magnitudes {m n : Nat} {e f : Int} (hm : Canonical m e) (hn : Canonical n f) :
    (compare e f).then (compare m n) = compare ((m : ℚ) * 2 ^ e) (n * 2 ^ f) := by
  rcases lt_trichotomy e f with hlt | rfl | hgt
  · rw [compare_lt_iff_lt.mpr hlt, compare_lt_iff_lt.mpr (scaled_lt_of_exponent_lt hm hn hlt)]
    rfl
  · have hpos : (0 : ℚ) < 2 ^ e := by positivity
    rw [compare_eq_iff_eq.mpr rfl, Ordering.eq_then]
    rcases lt_trichotomy m n with hlt | rfl | hgt
    · rw [compare_lt_iff_lt.mpr hlt, eq_comm, compare_lt_iff_lt]
      exact mul_lt_mul_of_pos_right (by exact_mod_cast hlt) hpos
    · rw [compare_eq_iff_eq.mpr rfl, compare_eq_iff_eq.mpr rfl]
    · rw [compare_gt_iff_gt.mpr hgt, eq_comm, compare_gt_iff_gt]
      exact mul_lt_mul_of_pos_right (by exact_mod_cast hgt) hpos
  · rw [compare_gt_iff_gt.mpr hgt, compare_gt_iff_gt.mpr (scaled_lt_of_exponent_lt hn hm hgt)]
    rfl

theorem compare_neg (q r : ℚ) : compare (-q) (-r) = (compare q r).swap := by
  rcases lt_trichotomy q r with h | rfl | h
  · rw [compare_gt_iff_gt.mpr (neg_lt_neg h), compare_lt_iff_lt.mpr h]
    rfl
  · rw [compare_eq_iff_eq.mpr rfl, compare_eq_iff_eq.mpr rfl]
    rfl
  · rw [compare_lt_iff_lt.mpr (neg_lt_neg h), compare_gt_iff_gt.mpr h]
    rfl

/-- Anatomies with canonical parts are compared as the ratios that they stand for. -/
theorem compare_unpacked (s t : Bool) {m n : Nat} {e f : Int} (hm : Canonical m e)
    (hn : Canonical n f) :
    (unpacked (.finite s m e)).compare (unpacked (.finite t n f)) =
      some (compare (signed s (m * 2 ^ e)) (signed t (n * 2 ^ f))) := by
  have hmpos : 0 < m → (0 : ℚ) < m * 2 ^ e := fun h => by positivity
  have hnpos : 0 < n → (0 : ℚ) < n * 2 ^ f := fun h => by positivity
  have hboth := compare_magnitudes hm hn
  unfold unpacked
  dsimp only
  rcases Nat.eq_zero_or_pos m with rfl | hmp
  · rw [dif_neg (Nat.lt_irrefl 0), Nat.cast_zero, zero_mul, signed_zero]
    rcases Nat.eq_zero_or_pos n with rfl | hnp
    · rw [dif_neg (Nat.lt_irrefl 0), Nat.cast_zero, zero_mul, signed_zero,
        compare_eq_iff_eq.mpr rfl]
      rfl
    · have hpos := hnpos hnp
      rw [dif_pos hnp]
      cases t
      · exact congrArg some (compare_lt_iff_lt.mpr hpos).symm
      · exact congrArg some (compare_gt_iff_gt.mpr (neg_lt_zero.mpr hpos)).symm
  · have hmpos := hmpos hmp
    rw [dif_pos hmp]
    rcases Nat.eq_zero_or_pos n with rfl | hnp
    · rw [dif_neg (Nat.lt_irrefl 0), Nat.cast_zero, zero_mul, signed_zero]
      cases s
      · exact congrArg some (compare_gt_iff_gt.mpr hmpos).symm
      · exact congrArg some (compare_lt_iff_lt.mpr (neg_lt_zero.mpr hmpos)).symm
    · have hnpos := hnpos hnp
      rw [dif_pos hnp]
      cases s <;> cases t
      · exact congrArg some hboth
      · exact congrArg some (compare_gt_iff_gt.mpr ((neg_lt_zero.mpr hnpos).trans hmpos)).symm
      · exact congrArg some (compare_lt_iff_lt.mpr ((neg_lt_zero.mpr hmpos).trans hnpos)).symm
      · exact congrArg some ((congrArg Ordering.swap hboth).trans (compare_neg _ _).symm)

section
variable {x y : Float} {q r : ℚ}

theorem compare_values (hx : value? x = some q) (hy : value? y = some r) :
    x.toModel.unpack.compare y.toModel.unpack = some (compare q r) := by
  obtain ⟨s, m, e, hxs, rfl⟩ := finite_of_value? hx
  obtain ⟨t, n, f, hys, rfl⟩ := finite_of_value? hy
  rw [unpack_eq, unpack_eq, hxs, hys]
  exact compare_unpacked s t (eq_ofMagnitude hxs).1 (eq_ofMagnitude hys).1

theorem lt_iff_compare (x y : Float) :
    x < y ↔ x.toModel.unpack.compare y.toModel.unpack = some .lt := by
  show decide ((x.toModel.unpack.lt y.toModel.unpack) = true) = true ↔ _
  rw [decide_eq_true_eq]
  exact beq_iff_eq

theorem le_iff_compare (x y : Float) :
    x ≤ y ↔ (x.toModel.unpack.compare y.toModel.unpack).any (·.isLE) = true := by
  show decide ((x.toModel.unpack.le y.toModel.unpack) = true) = true ↔ _
  rw [decide_eq_true_eq]
  exact Iff.rfl

/-- Less than, on doubles, is less than on their values. -/
theorem lt_iff (hx : value? x = some q) (hy : value? y = some r) : x < y ↔ q < r := by
  rw [lt_iff_compare, compare_values hx hy, Option.some_inj, compare_lt_iff_lt]

theorem le_iff (hx : value? x = some q) (hy : value? y = some r) : x ≤ y ↔ q ≤ r := by
  rw [le_iff_compare, compare_values hx hy, Option.any_some, ← compare_le_iff_le,
    Ordering.isLE_iff_ne_gt]

theorem anatomy_of_value? (h : value? x = none) :
    (∃ negative, anatomy x = .infinite negative) ∨ anatomy x = .undefined := by
  unfold value? at h
  cases hx : anatomy x with
  | finite negative significand exponent =>
    rw [hx] at h
    cases h
  | infinite negative => exact .inl ⟨negative, rfl⟩
  | undefined => exact .inr rfl

/-- What is not undefined is compared with a value by its sign, if it is infinite. -/
theorem compare_infinite (negative : Bool) (hx : anatomy x = .infinite negative)
    (hy : value? y = some r) :
    x.toModel.unpack.compare y.toModel.unpack = some (if negative then .lt else .gt) ∧
      y.toModel.unpack.compare x.toModel.unpack = some (if negative then .gt else .lt) := by
  obtain ⟨t, n, f, hys, -⟩ := finite_of_value? hy
  rw [unpack_eq, unpack_eq, hx, hys]
  rcases unpacked_finite t n f with ⟨hn, heq⟩ | heq
  · rw [heq]
    cases negative <;> exact ⟨rfl, rfl⟩
  · rw [heq]
    cases negative <;> exact ⟨rfl, rfl⟩

theorem compare_undefined (hx : anatomy x = .undefined) (hy : value? y = some r) :
    x.toModel.unpack.compare y.toModel.unpack = none ∧
      y.toModel.unpack.compare x.toModel.unpack = none := by
  obtain ⟨t, n, f, hys, -⟩ := finite_of_value? hy
  rw [unpack_eq, unpack_eq, hx, hys]
  rcases unpacked_finite t n f with ⟨hn, heq⟩ | heq
  · rw [heq]
    exact ⟨rfl, rfl⟩
  · rw [heq]
    exact ⟨rfl, rfl⟩

theorem not_le_of_undefined (hx : anatomy x = .undefined) (hy : value? y = some r) :
    ¬ x ≤ y ∧ ¬ y ≤ x := by
  obtain ⟨hxy, hyx⟩ := compare_undefined hx hy
  rw [le_iff_compare, le_iff_compare, hxy, hyx]
  decide

theorem le_infinite (hx : anatomy x = .infinite false) (hy : value? y = some r) :
    y < x ∧ y ≤ x ∧ ¬ x ≤ y := by
  obtain ⟨hxy, hyx⟩ := compare_infinite false hx hy
  rw [lt_iff_compare, le_iff_compare, le_iff_compare, hxy, hyx]
  decide

theorem infinite_le (hx : anatomy x = .infinite true) (hy : value? y = some r) :
    x ≤ y ∧ ¬ y < x ∧ ¬ y ≤ x := by
  obtain ⟨hxy, hyx⟩ := compare_infinite true hx hy
  rw [le_iff_compare, lt_iff_compare, le_iff_compare, hxy, hyx]
  decide

end

/-!
# Whole numbers
-/

theorem value?_ofMagnitude (negative : Bool) {m : Nat} {e : Int} (h : Canonical m e) :
    value? (ofMagnitude negative (magnitudeBits m e)) = some (signed negative (m * 2 ^ e)) :=
  value?_of_finite (anatomy_ofMagnitude negative h)

theorem value?_zero (negative : Bool) : value? (ofMagnitude negative 0) = some 0 := by
  have h : Canonical 0 (-1074) := ⟨by decide, by decide, by decide, .inr rfl⟩
  have hvalue := value?_ofMagnitude negative h
  rw [Nat.cast_zero, zero_mul, signed_zero] at hvalue
  exact hvalue

/-- The full-length significand of a natural number stands for the number. -/
theorem full_value {n : Nat} (hpos : 0 < n) (h : n < 2 ^ 53) :
    ((n <<< (52 - n.log2) : Nat) : ℚ) * 2 ^ ((n.log2 : Int) - 52) = n := by
  obtain ⟨hle, -, -⟩ := full_length hpos h
  have hexponent : (n.log2 : Int) - 52 = -((52 - n.log2 : Nat) : Int) := by omega
  rw [Nat.shiftLeft_eq, hexponent, zpow_neg, zpow_natCast, Nat.cast_mul, Nat.cast_pow,
    Nat.cast_ofNat, mul_assoc, mul_inv_cancel₀ (by positivity), mul_one]

theorem value?_ofNat {n : Nat} (h : n < 2 ^ 53) : value? (ofNat n) = some (n : ℚ) := by
  rcases Nat.eq_zero_or_pos n with rfl | hpos
  · have hzero : ofNat 0 = ofMagnitude false 0 := by decide
    rw [hzero, value?_zero, Nat.cast_zero]
  · rw [ofNat_finite hpos h, value?_ofMagnitude false (ofNat_canonical hpos h), full_value hpos h]
    rfl

/-- A double is near to what it stands for. -/
theorem near_self (m : Nat) (e : Int) (hpos : 0 < m) : Near m e (m * 2 ^ e) := by
  have hreach : 0 < reachDown m e := by
    unfold reachDown
    split <;> decide
  have hless : ((4 * m - reachDown m e : Nat) : ℚ) * 2 ^ (e - 2) < m * 2 ^ e := by
    have hlt : 4 * m - reachDown m e < 4 * m := by omega
    have hlt : ((4 * m - reachDown m e : Nat) : ℚ) < 4 * m := by exact_mod_cast hlt
    rw [quarter]
    gcongr
    linarith
  have hmore : (m : ℚ) * 2 ^ e < (4 * m + 2 : Nat) * 2 ^ (e - 2) := by
    rw [quarter]
    gcongr
    push_cast
    linarith
  exact ⟨hless.le, hmore.le, fun _ => ⟨hless, hmore⟩⟩

theorem value?_ofRatio (negative : Bool) {n : Nat} (h : n < 2 ^ 53) :
    value? (ofRatio negative n 1) = some (signed negative n) := by
  rcases Nat.eq_zero_or_pos n with rfl | hpos
  · rw [Nat.cast_zero, signed_zero]
    exact value?_zero negative
  · have hcanonical := ofNat_canonical hpos h
    have hself : ratio n 1 = ((n <<< (52 - n.log2) : Nat) : ℚ) * 2 ^ ((n.log2 : Int) - 52) := by
      rw [full_value hpos h]
      unfold ratio
      rw [Nat.cast_one, div_one]
    have hfull := full_length hpos h
    have hnear : Near (n <<< (52 - n.log2)) ((n.log2 : Int) - 52) (ratio n 1) := by
      rw [hself]
      exact near_self _ _ (by omega)
    rw [ofRatio_near negative hpos Nat.one_pos hcanonical hnear, value?_ofMagnitude _ hcanonical,
      full_value hpos h]

/-!
# Rounding up
-/

section
variable {x : Float} {q : ℚ}

/-- The whole part of a significand, and what the ratio is cut off to. -/
theorem floor_shifted (m k : Nat) : ⌊(m : ℚ) * 2 ^ (-(k : Int))⌋ = ((m >>> k : Nat) : Int) := by
  rw [zpow_neg, zpow_natCast, ← div_eq_mul_inv, Nat.shiftRight_eq_div_pow]
  exact_mod_cast Rat.floor_natCast_div_natCast m (2 ^ k)

theorem ceil_shifted (m k : Nat) :
    ⌈(m : ℚ) * 2 ^ (-(k : Int))⌉ =
      ((if (m >>> k) <<< k ≠ m then m >>> k + 1 else m >>> k : Nat) : Int) := by
  have hfloor := floor_shifted m k
  have hpow : (2 : ℚ) ^ (-(k : Int)) * 2 ^ k = 1 := by
    rw [zpow_neg, zpow_natCast, inv_mul_cancel₀ (by positivity)]
  obtain ⟨hlow, hhigh⟩ := Int.floor_eq_iff.mp hfloor
  rw [Int.cast_natCast] at hlow hhigh
  split
  · rename_i hrest
    have hne : ((m >>> k : Nat) : ℚ) ≠ m * 2 ^ (-(k : Int)) := by
      intro heq
      apply hrest
      rw [Nat.shiftLeft_eq]
      have hm : ((m >>> k : Nat) : ℚ) * 2 ^ k = m := by rw [heq, mul_assoc, hpow, mul_one]
      exact_mod_cast hm
    rw [Int.ceil_eq_iff]
    push_cast
    constructor
    · rw [add_sub_cancel_right]
      exact lt_of_le_of_ne hlow hne
    · exact hhigh.le
  · rename_i hwhole
    have hm : ((m >>> k : Nat) : ℚ) * 2 ^ k = m := by
      rw [Nat.shiftLeft_eq, not_not] at hwhole
      exact_mod_cast hwhole
    have hself : (m : ℚ) * 2 ^ (-(k : Int)) = (m >>> k : Nat) := by
      rw [← hm, mul_assoc, mul_comm (2 ^ k), hpow, mul_one]
    rw [hself]
    exact Int.ceil_natCast _

/-- The ratio of a double with a fraction is rounded up within the numbers that are doubles. -/
theorem shiftRight_small {m k : Nat} (hm : m < 2 * hiddenBit) (hk : 0 < k) : m >>> k + 1 < 2 ^ 53 := by
  have hhidden := hiddenBit_eq
  have hle : m >>> k ≤ m / 2 := by
    rw [Nat.shiftRight_eq_div_pow]
    exact Nat.div_le_div_left (Nat.le_self_pow (by omega) 2) (by decide)
  omega

theorem value?_ceil (h : value? x = some q) : value? (ceil x) = some (⌈q⌉ : ℚ) := by
  obtain ⟨negative, m, e, hx, rfl⟩ := finite_of_value? h
  have hsmall := (eq_ofMagnitude hx).1.small
  unfold ceil integerPart
  rw [hx]
  dsimp only
  split
  · -- Without a fraction the double is its own ceiling.
    rename_i he
    obtain ⟨k, rfl⟩ := Int.eq_ofNat_of_zero_le he
    have hwhole : signed negative ((m : ℚ) * 2 ^ (k : Int)) =
        ((if negative then -((m * 2 ^ k : Nat) : Int) else (m * 2 ^ k : Nat) : Int) : ℚ) := by
      cases negative <;> simp [signed]
    rw [h, hwhole, Int.ceil_intCast]
  · rename_i he
    obtain ⟨k, hk⟩ : ∃ k : Nat, (-e).toNat = k := ⟨_, rfl⟩
    obtain rfl : e = -(k : Int) := by omega
    have hless := shiftRight_small hsmall (show 0 < k by omega)
    rw [hk]
    cases negative
    · simp only [bne_iff_ne, Direction.away, Bool.not_false, Bool.and_true]
      rw [value?_ofRatio false (by split <;> omega)]
      unfold signed
      rw [if_neg Bool.false_ne_true, if_neg Bool.false_ne_true, ceil_shifted, Int.cast_natCast]
    · simp only [Direction.away, Bool.not_true, Bool.and_false, Bool.false_eq_true, if_false]
      rw [value?_ofRatio true (by omega)]
      unfold signed
      rw [if_pos rfl, if_pos rfl, Int.ceil_neg, floor_shifted, Int.cast_neg, Int.cast_natCast]

theorem ceil_of_none (h : value? x = none) : ceil x = x := by
  unfold ceil integerPart
  rcases anatomy_of_value? h with ⟨negative, hx⟩ | hx
  · rw [hx]
  · rw [hx]

/-!
# Machine words
-/

/-- The magnitude of the word that a double is cut off to. -/
theorem floor_scaled (m : Nat) (e : Int) :
    (((scaled m 1 (-e)).1 / (scaled m 1 (-e)).2 : Nat) : Int) = ⌊(m : ℚ) * 2 ^ e⌋ := by
  have hratio := ratio_scaled m 1 (-e)
  unfold ratio at hratio
  rw [Nat.cast_one, div_one, zpow_neg, div_inv_eq_mul] at hratio
  rw [← hratio, Rat.floor_natCast_div_natCast, Int.natCast_ediv]

theorem fitsWord_iff (i : Int) : fitsWord i = true ↔ -2 ^ 63 ≤ i ∧ i < 2 ^ 63 := by
  have hleast : leastWord = -2 ^ 63 := by decide
  unfold fitsWord
  rw [hleast, Bool.and_eq_true, decide_eq_true_eq, decide_eq_true_eq, neg_neg]

theorem toWord_of_finite {negative : Bool} {m : Nat} {e : Int}
    (h : anatomy x = .finite negative m e) :
    toWord x =
      (let whole := ⌊(m : ℚ) * 2 ^ e⌋
       let i := if negative then -whole else whole
       if fitsWord i then i else leastWord) := by
  unfold toWord
  rw [h]
  dsimp only
  rw [floor_scaled]

/-- Between -1 and `2^63`, a double is cut off to its whole part. -/
theorem toWord_of_value (h : value? x = some q) (hlow : -1 < q) (hhigh : q < 2 ^ 63) :
    toWord x = (⌊q⌋.toNat : Int) := by
  obtain ⟨negative, m, e, hx, rfl⟩ := finite_of_value? h
  have hpos : (0 : ℚ) ≤ m * 2 ^ e := by positivity
  have hfloor : 0 ≤ ⌊(m : ℚ) * 2 ^ e⌋ := Int.floor_nonneg.mpr hpos
  rw [toWord_of_finite hx]
  unfold signed at hlow hhigh ⊢
  cases negative
  · simp only [Bool.false_eq_true, if_false] at hlow hhigh ⊢
    have hless : ⌊(m : ℚ) * 2 ^ e⌋ < 2 ^ 63 := Int.floor_lt.mpr (by exact_mod_cast hhigh)
    rw [if_pos ((fitsWord_iff _).mpr ⟨by omega, hless⟩), Int.toNat_of_nonneg hfloor]
  · simp only [if_true] at hlow hhigh ⊢
    have hzero : ⌊(m : ℚ) * 2 ^ e⌋ = 0 := Int.floor_eq_zero_iff.mpr ⟨hpos, by linarith⟩
    have hbelow : ⌊-((m : ℚ) * 2 ^ e)⌋ ≤ 0 := by
      have hle := Int.floor_le (-((m : ℚ) * 2 ^ e))
      have hle : (⌊-((m : ℚ) * 2 ^ e)⌋ : ℚ) ≤ 0 := by linarith
      exact_mod_cast hle
    rw [hzero, Int.toNat_of_nonpos hbelow]
    decide

/-- All other doubles are cut off to a negative word. -/
theorem toWord_negative (h : ∀ q, value? x = some q → q ≤ -1 ∨ 2 ^ 63 ≤ q) : toWord x < 0 := by
  have hbelow : leastWord < 0 := by decide
  cases hv : value? x with
  | none =>
    unfold toWord
    rcases anatomy_of_value? hv with ⟨negative, hx⟩ | hx
    · rw [hx]
      exact hbelow
    · rw [hx]
      exact hbelow
  | some q =>
    have hout := h q hv
    obtain ⟨negative, m, e, hx, rfl⟩ := finite_of_value? hv
    have hpos : (0 : ℚ) ≤ m * 2 ^ e := by positivity
    rw [toWord_of_finite hx]
    unfold signed at hout
    cases negative
    · simp only [Bool.false_eq_true, if_false] at hout ⊢
      have hmore : 2 ^ 63 ≤ ⌊(m : ℚ) * 2 ^ e⌋ := by
        rcases hout with hlow | hhigh
        · linarith
        · exact Int.le_floor.mpr (by exact_mod_cast hhigh)
      rw [if_neg (fun hfits => absurd ((fitsWord_iff _).mp hfits).2 (not_lt.mpr hmore))]
      exact hbelow
    · simp only [if_true] at hout ⊢
      have hone : 1 ≤ ⌊(m : ℚ) * 2 ^ e⌋ := by
        rcases hout with hlow | hhigh
        · exact Int.le_floor.mpr (by push_cast; linarith)
        · norm_num at hhigh
          linarith
      split
      · omega
      · exact hbelow

/-- The natural number that a double is cut off to, if it lies above -1 and below `2^63`. -/
def whole? (x : Float) : Option Nat :=
  (value? x).bind fun q => if -1 < q ∧ q < 2 ^ 63 then some ⌊q⌋.toNat else none

theorem toWord_of_whole {k : Nat} (h : whole? x = some k) : toWord x = k := by
  obtain ⟨q, hv, hq⟩ := Option.bind_eq_some_iff.mp h
  split at hq
  · rename_i hbounds
    cases hq
    exact toWord_of_value hv hbounds.1 hbounds.2
  · cases hq

theorem toWord_of_not_whole (h : whole? x = none) : toWord x < 0 := by
  refine toWord_negative fun q hv => ?_
  by_contra hinside
  obtain ⟨hlow, hhigh⟩ := not_or.mp hinside
  have hsome : whole? x = some ⌊q⌋.toNat := by
    unfold whole?
    rw [hv, Option.bind_some, if_pos ⟨not_le.mp hlow, not_le.mp hhigh⟩]
  rw [hsome] at h
  cases h

end

theorem whole?_ofNat {n : Nat} (h : n < 2 ^ 53) : whole? (ofNat n) = some n := by
  have hpos : (0 : ℚ) ≤ n := Nat.cast_nonneg n
  have hless : (n : ℚ) < 2 ^ 53 := by exact_mod_cast h
  unfold whole?
  rw [value?_ofNat h, Option.bind_some, if_pos ⟨by linarith, by linarith⟩, Int.floor_natCast,
    Int.toNat_natCast]

/-!
# Lengths
-/

section
variable {x : Float} {n : Nat}

theorem ofNat_zero : ofNat 0 = 0 := by
  decide

theorem ofNat_one : ofNat 1 = 1 := by
  decide

theorem le_of_value {q : ℚ} (h : value? x = some q) : 0 ≤ x ↔ 0 ≤ q := by
  have hzero := le_iff (value?_ofNat (show 0 < 2 ^ 53 by decide)) h
  rw [ofNat_zero, Nat.cast_zero] at hzero
  exact hzero

/-- What is not below zero is finite or infinite. -/
theorem nonneg_cases (h : 0 ≤ x) :
    (∃ q, value? x = some q ∧ 0 ≤ q) ∨ anatomy x = .infinite false := by
  have hzero : value? (0 : Float) = some ((0 : Nat) : ℚ) := by
    rw [← ofNat_zero]
    exact value?_ofNat (by decide)
  cases hv : value? x with
  | some q => exact .inl ⟨q, rfl, (le_of_value hv).mp h⟩
  | none =>
    rcases anatomy_of_value? hv with ⟨negative, hx⟩ | hx
    · cases negative with
      | false => exact .inr hx
      | true => exact ((infinite_le hx hzero).2.2 h).elim
    · exact ((not_le_of_undefined hx hzero).2 h).elim

/-- A double that is not below zero exceeds a natural number if its value does or it has none. -/
theorem ofNat_lt_iff (hn : n < 2 ^ 53) (h : 0 ≤ x) :
    ofNat n < x ↔ ∀ q, value? x = some q → (n : ℚ) < q := by
  rcases nonneg_cases h with ⟨q, hv, -⟩ | hx
  · rw [lt_iff (value?_ofNat hn) hv]
    constructor
    · intro hlt r hr
      cases hv.symm.trans hr
      exact hlt
    · intro hall
      exact hall q hv
  · constructor
    · intro _ q hq
      rw [value?_of_infinite hx] at hq
      cases hq
    · intro _
      exact (le_infinite hx (value?_ofNat hn)).1

/-- A double that is not below zero and does not exceed a natural number is cut off to one that does
not either. -/
theorem whole?_of_le (hn : n < 2 ^ 53) (h : 0 ≤ x) (hle : ¬ ofNat n < x) :
    ∃ k, whole? x = some k ∧ k ≤ n := by
  rw [ofNat_lt_iff hn h] at hle
  push Not at hle
  obtain ⟨q, hv, hq⟩ := hle
  have hpos : 0 ≤ q := (le_of_value hv).mp h
  have hless : (n : ℚ) < 2 ^ 53 := by exact_mod_cast hn
  refine ⟨⌊q⌋.toNat, ?_, ?_⟩
  · unfold whole?
    rw [hv, Option.bind_some, if_pos ⟨by linarith, by linarith⟩]
  · have hfloor : ⌊q⌋ ≤ (n : Int) := by
      have hbelow := Int.floor_le q
      have hbelow : (⌊q⌋ : ℚ) ≤ (n : Int) := by
        push_cast
        linarith
      exact_mod_cast hbelow
    omega

/-- How many steps of one lead from zero to a double or past it, if finitely many do. -/
def span? (x : Float) : Option Nat :=
  match value? x with
  | some q => some ⌈q⌉.toNat
  | none => if anatomy x = .infinite true then some 0 else none

theorem ceil_le_iff (hn : n < 2 ^ 53) : ceil x ≤ ofNat n ↔ ∃ k, span? x = some k ∧ k ≤ n := by
  have hvalue := value?_ofNat hn
  unfold span?
  cases hv : value? x with
  | some q =>
    rw [le_iff (value?_ceil hv) hvalue]
    have hcast : (⌈q⌉ : ℚ) ≤ n ↔ ⌈q⌉.toNat ≤ n := by
      rw [← Int.cast_natCast, Int.cast_le]
      omega
    simp only [hcast, Option.some.injEq, exists_eq_left']
  | none =>
    rw [ceil_of_none hv]
    dsimp only
    rcases anatomy_of_value? hv with ⟨negative, hx⟩ | hx
    · rw [hx]
      cases negative with
      | false =>
        rw [if_neg (by simp)]
        exact ⟨fun hle => ((le_infinite hx hvalue).2.2 hle).elim, fun ⟨k, hk, _⟩ => by cases hk⟩
      | true =>
        rw [if_pos rfl]
        exact ⟨fun _ => ⟨0, rfl, Nat.zero_le n⟩, fun _ => (infinite_le hx hvalue).1⟩
    · rw [hx, if_neg (by simp)]
      exact ⟨fun hle => ((not_le_of_undefined hx hvalue).1 hle).elim, fun ⟨k, hk, _⟩ => by cases hk⟩

/-- A number of steps that a machine word can hold is the word that the ceiling is cut off to. -/
theorem steps_of_span (h : span? x = some n) (hn : n < 2 ^ 53) :
    (if 0 < ceil x then (toWord (ceil x)).toNat else 0) = n := by
  have hzero : value? (0 : Float) = some ((0 : Nat) : ℚ) := by
    rw [← ofNat_zero]
    exact value?_ofNat (by decide)
  unfold span? at h
  cases hv : value? x with
  | some q =>
    rw [hv] at h
    have hvalue := value?_ceil hv
    have hn' : ⌈q⌉.toNat = n := Option.some.inj h
    have hiff := lt_iff hzero hvalue
    rw [Nat.cast_zero] at hiff
    split
    · rename_i hpos
      have hpos : 0 < ⌈q⌉ := by exact_mod_cast hiff.mp hpos
      have hless : (⌈q⌉ : ℚ) < 2 ^ 63 := by
        have hle : ⌈q⌉ < 2 ^ 63 := by omega
        exact_mod_cast hle
      rw [toWord_of_value hvalue (by exact_mod_cast (by omega : -1 < ⌈q⌉)) hless, Int.floor_intCast]
      omega
    · rename_i hpos
      have hpos : ¬ 0 < ⌈q⌉ := fun h => hpos (hiff.mpr (by exact_mod_cast h))
      omega
  | none =>
    rw [hv] at h
    dsimp only at h
    split at h
    · rename_i hx
      cases h
      rw [ceil_of_none hv, if_neg (infinite_le hx hzero).2.1]
    · cases h

end

section
variable {x y : Float} {q r : ℚ} {n : Nat}

/-!
# Comparisons
-/

theorem beq_iff_compare (x y : Float) :
    (x == y) = true ↔ x.toModel.unpack.compare y.toModel.unpack = some .eq := by
  show ((x.toModel.unpack.beq y.toModel.unpack) = true) ↔ _
  exact beq_iff_eq

/-- Equality, on doubles, is equality of their values. -/
theorem beq_iff (hx : value? x = some q) (hy : value? y = some r) : (x == y) = true ↔ q = r := by
  rw [beq_iff_compare, compare_values hx hy, Option.some_inj, compare_eq_iff_eq]

/-- What is undefined differs from itself. -/
theorem beq_undefined (h : anatomy x = .undefined) : (x == x) = false := by
  rw [← Bool.not_eq_true, beq_iff_compare, unpack_eq, h]
  decide

theorem value?_one : value? (1 : Float) = some 1 := by
  have hvalue := value?_ofNat (show 1 < 2 ^ 53 by decide)
  rw [ofNat_one, Nat.cast_one] at hvalue
  exact hvalue

/-!
# Cutting off a fraction
-/

theorem value?_trunc (h : value? x = some q) (hq : 0 < q) : value? (trunc x) = some (⌊q⌋ : ℚ) := by
  obtain ⟨negative, m, e, hx, rfl⟩ := finite_of_value? h
  have hsmall := (eq_ofMagnitude hx).1.small
  have hmagnitude : (0 : ℚ) ≤ m * 2 ^ e := by positivity
  cases negative with
  | true => exact absurd hq (not_lt.mpr (neg_nonpos.mpr hmagnitude))
  | false =>
    have hq : signed false ((m : ℚ) * 2 ^ e) = m * 2 ^ e := rfl
    unfold trunc integerPart
    rw [hx]
    dsimp only
    split
    · -- Without a fraction the double is what it is cut off to.
      rename_i he
      obtain ⟨k, rfl⟩ := Int.eq_ofNat_of_zero_le he
      have hwhole : (m : ℚ) * 2 ^ (k : Int) = ((m * 2 ^ k : Nat) : Int) := by simp
      rw [h, hq, hwhole, Int.floor_intCast]
    · rename_i he
      obtain ⟨k, hk⟩ : ∃ k : Nat, (-e).toNat = k := ⟨_, rfl⟩
      obtain rfl : e = -(k : Int) := by omega
      have hless := shiftRight_small hsmall (show 0 < k by omega)
      simp only [hk, Direction.away, Bool.and_false, Bool.false_eq_true, if_false]
      rw [value?_ofRatio false (by omega), hq, floor_shifted, Int.cast_natCast]
      rfl

theorem trunc_of_none (h : value? x = none) : trunc x = x := by
  unfold trunc integerPart
  rcases anatomy_of_value? h with ⟨negative, hx⟩ | hx
  · rw [hx]
  · rw [hx]

/-- A small natural number is the word that it is cut off to. -/
theorem toNat_toWord (h : value? x = some (n : ℚ)) (hn : n < 2 ^ 53) :
    (toWord x).toNat = n := by
  have hlow : (0 : ℚ) ≤ n := Nat.cast_nonneg n
  have hhigh : (n : ℚ) < 2 ^ 53 := by exact_mod_cast hn
  rw [toWord_of_value h (by linarith) (by linarith), Int.floor_natCast, Int.toNat_natCast,
    Int.toNat_natCast]

end

/-!
# Sums of natural numbers
-/

/-- Zeros at the end of a significand are shifted out without a trace. -/
theorem shiftRight_zeros (n : Nat) {j d : Nat} (h : d ≤ j) :
    (⟨n <<< j, false, false⟩ : ExtendedMantissa) >>> d = ⟨n <<< (j - d), false, false⟩ := by
  induction d with
  | zero => rfl
  | succ d ih =>
    have hone : n <<< (j - d) = n <<< (j - (d + 1)) * 2 := by
      rw [Nat.shiftLeft_eq, Nat.shiftLeft_eq, Nat.mul_assoc, ← Nat.pow_succ]
      congr 2
      omega
    show ExtendedMantissa.shiftRightOne ((⟨n <<< j, false, false⟩ : ExtendedMantissa) >>> d) = _
    rw [ih (Nat.le_of_succ_le h), hone]
    unfold ExtendedMantissa.shiftRightOne
    simp

theorem log2_shiftLeft {n : Nat} (hpos : 0 < n) (j : Nat) : (n <<< j).log2 = n.log2 + j := by
  have hne : n <<< j ≠ 0 := by
    rw [Nat.shiftLeft_eq]
    exact Nat.ne_of_gt (Nat.mul_pos hpos (Nat.two_pow_pos j))
  rw [Nat.log2_eq_iff hne, Nat.shiftLeft_eq, Nat.pow_add, Nat.add_right_comm, Nat.pow_add]
  exact ⟨Nat.mul_le_mul_right _ (Nat.log2_self_le (Nat.ne_of_gt hpos)),
    Nat.mul_lt_mul_of_pos_right Nat.lt_log2_self (Nat.two_pow_pos j)⟩

/-- A natural number with zeros behind it is rounded to itself. -/
theorem round_zeros {n j : Nat} (hpos : 0 < n) (h : n < 2 ^ 53) (hj : 52 - n.log2 ≤ j)
    (hfull : 0 < n <<< (52 - n.log2)) :
    UnpackedFloat.round Format.binary64 .positive (n <<< j) (-j) =
      .finite .positive (n <<< (52 - n.log2)) (n.log2 - 52) hfull := by
  obtain ⟨hle, hlow, hhigh⟩ := full_length hpos h
  have hbits : Format.binary64.mantissaBits = 53 := rfl
  have hmin : Format.binary64.minExponent = -1074 := rfl
  have htarget : Format.binary64.targetExponent (totalExponent (n <<< j) (-j)) = (n.log2 : Int) - 52 := by
    unfold Float.Model.Format.targetExponent totalExponent
    rw [log2_shiftLeft hpos, hbits, hmin]
    omega
  have hkept : (-(j : Int) - ((n.log2 : Int) - 52)).toNat = 0 := by omega
  have hdropped : ((n.log2 : Int) - 52 - -(j : Int)).toNat = j - (52 - n.log2) := by omega
  have hshift : shiftToTargetExponent Format.binary64 (n <<< j) (-j) .exact =
      (⟨n <<< (52 - n.log2), false, false⟩, (n.log2 : Int) - 52) := by
    unfold shiftToTargetExponent shiftToExponent
    rw [htarget]
    dsimp only
    rw [hdropped]
    show ((⟨n <<< j, false, false⟩ : ExtendedMantissa) >>> (j - (52 - n.log2)), _) = _
    rw [shiftRight_zeros n (Nat.sub_le _ _), Nat.sub_sub_self hj]
    congr 1
    omega
  have hrounded : ExtendedMantissa.roundedMantissa ⟨n <<< (52 - n.log2), false, false⟩ =
      n <<< (52 - n.log2) := rfl
  unfold UnpackedFloat.round decreaseExponent
  dsimp only
  rw [htarget, hkept, Nat.shiftLeft_zero, Int.natCast_zero, Int.sub_zero]
  unfold roundWithAccuracy
  rw [hshift]
  dsimp only
  rw [hrounded, shiftToTarget_full (log2_full hlow hhigh) (by omega)]
  exact dif_neg (Nat.ne_of_gt hfull)

theorem unpack_ofNat {n : Nat} (hpos : 0 < n) (h : n < 2 ^ 53) (hfull : 0 < n <<< (52 - n.log2)) :
    (ofNat n).toModel.unpack = .finite .positive (n <<< (52 - n.log2)) (n.log2 - 52) hfull := by
  rw [unpack_eq, ofNat_finite hpos h, anatomy_ofMagnitude false (ofNat_canonical hpos h)]
  exact dif_pos hfull

/-- Natural numbers below `2^53` are added as such. -/
theorem ofNat_add {a b : Nat} (ha : 0 < a) (hb : 0 < b) (h : a + b < 2 ^ 53) :
    ofNat a + ofNat b = ofNat (a + b) := by
  have hab : 0 < a + b := Nat.add_pos_left ha b
  obtain ⟨hale, halow, -⟩ := full_length ha (by omega)
  obtain ⟨hble, hblow, -⟩ := full_length hb (by omega)
  obtain ⟨hle, hlow, hhigh⟩ := full_length hab h
  have hfull : 0 < (a + b) <<< (52 - (a + b).log2) := by omega
  -- The significands are brought to the lower exponent of the two.
  obtain ⟨j, hj⟩ : ∃ j, j = 52 - min a.log2 b.log2 := ⟨_, rfl⟩
  have hexponent : min ((a.log2 : Int) - 52) (b.log2 - 52) = -(j : Int) := by omega
  have hscaled {n : Nat} (hn : n.log2 ≤ 52) (hnj : 52 - n.log2 ≤ j) :
      (n <<< (52 - n.log2)) <<< ((n.log2 : Int) - 52 - -(j : Int)).toNat = n <<< j := by
    rw [← Nat.shiftLeft_add]
    congr 1
    omega
  have hmonotone : 2 ^ min a.log2 b.log2 ≤ a + b :=
    calc 2 ^ min a.log2 b.log2 ≤ 2 ^ a.log2 := Nat.pow_le_pow_right (by decide) (Nat.min_le_left _ _)
      _ ≤ a := Nat.log2_self_le (Nat.ne_of_gt ha)
      _ ≤ a + b := Nat.le_add_right _ _
  have hlog : min a.log2 b.log2 ≤ (a + b).log2 := (Nat.le_log2 (Nat.ne_of_gt hab)).mpr hmonotone
  have hsum : (Sign.positive.apply (a <<< j : Nat) + Sign.positive.apply (b <<< j : Nat) : Int) =
      ((a + b) <<< j : Nat) := by
    rw [Nat.shiftLeft_eq, Nat.shiftLeft_eq, Nat.shiftLeft_eq, Nat.add_mul]
    rfl
  have hpos : 0 < (a + b) <<< j := by
    rw [Nat.shiftLeft_eq]
    exact Nat.mul_pos hab (Nat.two_pow_pos j)
  have hadd : UnpackedFloat.add Format.binary64 (ofNat a).toModel.unpack (ofNat b).toModel.unpack =
      .finite .positive ((a + b) <<< (52 - (a + b).log2)) ((a + b).log2 - 52) hfull := by
    rw [unpack_ofNat ha (by omega) (by omega), unpack_ofNat hb (by omega) (by omega)]
    unfold UnpackedFloat.add decreaseExponent UnpackedFloat.normalize
    dsimp only
    rw [hexponent, hscaled hale (by omega), hscaled hble (by omega), hsum,
      Int.compare_eq_gt.mpr (by omega)]
    exact round_zeros hab h (by omega) hfull
  have hcanonical := ofNat_canonical hab h
  apply eq_of_toBits_eq
  apply UInt64.toNat_inj.mp
  rw [ofNat_finite hab h, toBits_ofMagnitude false (Nat.le_of_lt (magnitudeBits_lt hcanonical))]
  simp only [Bool.false_eq_true, if_false, Nat.zero_add]
  show (UnpackedFloat.pack Format.binary64
    (UnpackedFloat.add Format.binary64 (ofNat a).toModel.unpack (ofNat b).toModel.unpack)).toNat = _
  rw [hadd]
  exact toNat_pack_full hlow hhigh (by omega) (by omega) hfull

theorem ofNat_succ {n : Nat} (h : n + 1 < 2 ^ 53) : ofNat n + 1 = ofNat (n + 1) := by
  rcases Nat.eq_zero_or_pos n with rfl | hpos
  · decide
  · rw [← ofNat_one, ofNat_add hpos Nat.one_pos h]

end Number
end ScriptEngine
