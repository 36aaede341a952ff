import ScriptEngine.Number.Display
import ScriptEngine.Number.Reading
import ScriptEngine.Proofs.Number.Rounding

/-!
# The shortest decimal of a double

The search for a decimal ends before its grids are used up, and what it finds lies in the
neighbourhood of the double. The decimal therefore rounds to the double it was found for.
-/

namespace ScriptEngine
namespace Number

/-- The value of a decimal. -/
def Decimal.value (d : Decimal) : ℚ :=
  d.digits * 10 ^ d.exponent

theorem powerOfTen_ratio (p : Int) : ratio (powerOfTen p).1 (powerOfTen p).2 = 10 ^ p := by
  unfold powerOfTen ratio
  split
  · rename_i hp
    obtain ⟨k, rfl⟩ := Int.eq_ofNat_of_zero_le hp
    simp only [Int.toNat_natCast, Nat.pow_eq, Nat.cast_pow, Nat.cast_ofNat, Nat.cast_one, div_one,
      zpow_natCast]
  · rename_i hp
    obtain ⟨k, hk⟩ := Int.eq_ofNat_of_zero_le (show 0 ≤ -p by omega)
    obtain rfl : p = -(k : Int) := by omega
    simp only [neg_neg, Int.toNat_natCast, Nat.pow_eq, Nat.cast_pow, Nat.cast_ofNat, Nat.cast_one,
      zpow_neg, zpow_natCast, one_div]

theorem powerOfTen_pos (p : Int) : 0 < (powerOfTen p).1 ∧ 0 < (powerOfTen p).2 := by
  unfold powerOfTen
  split
  · exact ⟨Nat.pow_pos (by decide), Nat.one_pos⟩
  · exact ⟨Nat.one_pos, Nat.pow_pos (by decide)⟩

/-!
# Neighbourhoods on a grid
-/

theorem ratio_mul_le {a b c d : Nat} (hb : 0 < b) (hd : 0 < d) :
    a * d ≤ c * b ↔ ratio a b ≤ ratio c d := by
  unfold ratio
  rw [div_le_div_iff₀ (by exact_mod_cast hb) (by exact_mod_cast hd)]
  exact_mod_cast Iff.rfl

theorem ratio_mul_lt {a b c d : Nat} (hb : 0 < b) (hd : 0 < d) :
    a * d < c * b ↔ ratio a b < ratio c d := by
  unfold ratio
  rw [div_lt_div_iff₀ (by exact_mod_cast hb) (by exact_mod_cast hd)]
  exact_mod_cast Iff.rfl

theorem ratio_mul (k num den : Nat) : ratio (k * num) den = k * ratio num den := by
  unfold ratio
  push_cast
  ring

theorem scaled_one (e : Int) : ratio (scaled 1 1 e).1 (scaled 1 1 e).2 = 2 ^ (-e) := by
  rw [ratio_scaled, zpow_neg]
  unfold ratio
  norm_num

section
variable (significand : Nat) (exponent : Int)

theorem neighbourhood_den_pos : 0 < (neighbourhood significand exponent).den :=
  scaled_pos Nat.one_pos _

theorem neighbourhood_low :
    ratio (neighbourhood significand exponent).low (neighbourhood significand exponent).den =
      (4 * significand - reachDown significand exponent : Nat) * 2 ^ (exponent - 2) := by
  unfold neighbourhood
  dsimp only
  rw [ratio_mul, scaled_one, neg_sub]
  rfl

theorem neighbourhood_mid :
    ratio (neighbourhood significand exponent).mid (neighbourhood significand exponent).den =
      (4 * significand : Nat) * 2 ^ (exponent - 2) := by
  unfold neighbourhood
  dsimp only
  rw [ratio_mul, scaled_one, neg_sub]

theorem neighbourhood_high :
    ratio (neighbourhood significand exponent).high (neighbourhood significand exponent).den =
      (4 * significand + 2 : Nat) * 2 ^ (exponent - 2) := by
  unfold neighbourhood
  dsimp only
  rw [ratio_mul, scaled_one, neg_sub]

end

theorem holds_iff {h : Neighbourhood} (hden : 0 < h.den) (p : Int) (n : Nat) :
    h.holds (powerOfTen p).1 (powerOfTen p).2 n = true ↔
      if h.closed then ratio h.low h.den ≤ n * 10 ^ p ∧ n * 10 ^ p ≤ ratio h.high h.den
      else ratio h.low h.den < n * 10 ^ p ∧ n * 10 ^ p < ratio h.high h.den := by
  obtain ⟨hnum', hden'⟩ := powerOfTen_pos p
  have hpoint : (n : ℚ) * 10 ^ p = ratio (n * (powerOfTen p).1) (powerOfTen p).2 := by
    rw [ratio_mul, powerOfTen_ratio]
  rw [hpoint]
  unfold Neighbourhood.holds
  dsimp only
  split
  · rw [Bool.and_eq_true, decide_eq_true_eq, decide_eq_true_eq, ratio_mul_le hden hden',
      ratio_mul_le hden' hden]
  · rw [Bool.and_eq_true, decide_eq_true_eq, decide_eq_true_eq, ratio_mul_lt hden hden',
      ratio_mul_lt hden' hden]

theorem near_of_holds {significand : Nat} {exponent p : Int} {n : Nat}
    (h : (neighbourhood significand exponent).holds (powerOfTen p).1 (powerOfTen p).2 n = true) :
    Near significand exponent (n * 10 ^ p) := by
  rw [holds_iff (neighbourhood_den_pos _ _), neighbourhood_low, neighbourhood_high] at h
  split at h
  · rename_i hclosed
    have heven : significand % 2 = 0 := eq_of_beq hclosed
    exact ⟨h.1, h.2, fun hodd => by omega⟩
  · exact ⟨le_of_lt h.1, le_of_lt h.2, fun _ => h⟩

theorem holds_of_onGrid? {h : Neighbourhood} {p : Int} {n : Nat} (hgrid : h.onGrid? p = some n) :
    h.holds (powerOfTen p).1 (powerOfTen p).2 n = true := by
  unfold Neighbourhood.onGrid? at hgrid
  dsimp only at hgrid
  split at hgrid
  · cases hgrid
  · rename_i hbelow _
    cases hgrid
    exact hbelow
  · rename_i _ habove
    cases hgrid
    exact habove
  · rename_i hbelow habove
    split at hgrid
    · cases hgrid
      exact hbelow
    · split at hgrid
      · cases hgrid
        exact habove
      · split at hgrid
        · cases hgrid
          exact hbelow
        · cases hgrid
          exact habove

theorem onGrid?_isSome {h : Neighbourhood} {p : Int}
    (habove : h.holds (powerOfTen p).1 (powerOfTen p).2
      (h.mid * (powerOfTen p).2 / ((powerOfTen p).1 * h.den) + 1) = true) :
    (h.onGrid? p).isSome = true := by
  unfold Neighbourhood.onGrid?
  dsimp only
  rw [habove]
  split
  · rename_i hfalse
    cases hfalse
  · rename_i hfalse
    cases hfalse
  · rfl
  · split
    · rfl
    · split
      · rfl
      · split
        · rfl
        · rfl

/-- A grid finer than half the last place has a multiple in the neighbourhood. -/
theorem onGrid?_of_fine {significand : Nat} {exponent p : Int} (hpos : 0 < significand)
    (hfine : (10 : ℚ) ^ p < 2 ^ (exponent - 1)) :
    ((neighbourhood significand exponent).onGrid? p).isSome = true := by
  obtain ⟨hnum', hden'⟩ := powerOfTen_pos p
  have hden := neighbourhood_den_pos significand exponent
  refine onGrid?_isSome ?_
  rw [holds_iff hden, neighbourhood_low, neighbourhood_high]
  have hmid := neighbourhood_mid significand exponent
  generalize neighbourhood significand exponent = h at hden hmid ⊢
  set k := h.mid * (powerOfTen p).2 / ((powerOfTen p).1 * h.den) with hk
  -- The multiple is the first one above the middle.
  have hunit : (0 : ℚ) < 10 ^ p := by positivity
  have hratio : ratio (h.mid * (powerOfTen p).2) ((powerOfTen p).1 * h.den) =
      ratio h.mid h.den / 10 ^ p := by
    rw [← powerOfTen_ratio]
    have h₁ : ((powerOfTen p).1 : ℚ) ≠ 0 := by exact_mod_cast Nat.ne_of_gt hnum'
    have h₂ : ((powerOfTen p).2 : ℚ) ≠ 0 := by exact_mod_cast Nat.ne_of_gt hden'
    have h₃ : (h.den : ℚ) ≠ 0 := by exact_mod_cast Nat.ne_of_gt hden
    unfold ratio
    push_cast
    field_simp
  have hbelow : (k : ℚ) * 10 ^ p ≤ ratio h.mid h.den := by
    have hle := (le_div_iff_ratio (Nat.mul_pos hnum' hden)).mp (le_of_eq hk)
    rwa [hratio, le_div_iff₀ hunit] at hle
  have habove : ratio h.mid h.den < (k + 1 : Nat) * 10 ^ p := by
    rw [← not_le, ← le_div_iff₀ hunit, ← hratio, ← le_div_iff_ratio (Nat.mul_pos hnum' hden)]
    omega
  rw [hmid] at hbelow habove
  have hlast : (0 : ℚ) < 2 ^ (exponent - 2) := by positivity
  have hhalf : (2 : ℚ) ^ (exponent - 1) = 2 * 2 ^ (exponent - 2) := by
    rw [show exponent - 1 = 1 + (exponent - 2) by ring, zpow_add₀ (by norm_num), zpow_one]
  have hlow : ((4 * significand - reachDown significand exponent : Nat) : ℚ) * 2 ^ (exponent - 2) <
      (k + 1 : Nat) * 10 ^ p := by
    refine lt_of_le_of_lt ?_ habove
    gcongr
    omega
  have hhigh : ((k + 1 : Nat) : ℚ) * 10 ^ p < (4 * significand + 2 : Nat) * 2 ^ (exponent - 2) := by
    push_cast at hbelow ⊢
    linarith
  split
  · exact ⟨le_of_lt hlow, le_of_lt hhigh⟩
  · exact ⟨hlow, hhigh⟩

/-!
# The search
-/

theorem search_found (h : Neighbourhood) :
    ∀ (fuel : Nat) (p : Int) (last : Int), p - fuel < last → last ≤ p →
      (h.onGrid? last).isSome = true →
      h.onGrid? (h.search p fuel).exponent = some (h.search p fuel).digits ∧
        last ≤ (h.search p fuel).exponent ∧ (h.search p fuel).exponent ≤ p := by
  intro fuel
  induction fuel with
  | zero =>
    intro p last hfirst hlast hsome
    omega
  | succ fuel ih =>
    intro p last hfirst hlast hsome
    unfold Neighbourhood.search
    cases hgrid : h.onGrid? p with
    | some n =>
      exact ⟨hgrid, hlast, le_rfl⟩
    | none =>
      have hne : last ≠ p := by
        rintro rfl
        rw [hgrid] at hsome
        cases hsome
      obtain ⟨hfound, hfrom, hto⟩ := ih (p - 1) last (by omega) (by omega) hsome
      exact ⟨hfound, hfrom, le_trans hto (by omega)⟩

/-- Powers of ten compared with powers of two: `10^3 < 2^10` and `2^93 < 10^28`. -/
theorem ten_lt_two {q e : Int} (hpositive : 0 ≤ q → 10 * q < 3 * e)
    (hnegative : q < 0 → 93 * q < 28 * e) : (10 : ℚ) ^ q < 2 ^ e := by
  have htwo : (2 : ℚ) ≠ 0 := by norm_num
  rcases lt_or_ge q 0 with hq | hq
  · refine lt_of_pow_lt_pow_left₀ 28 (by positivity) ?_
    have hbase : (((10 : ℚ) ^ q) ^ 28) ≤ 2 ^ (93 * q) := by
      obtain ⟨k, rfl⟩ : ∃ k : Nat, q = -(k : Int) := ⟨q.natAbs, by omega⟩
      rw [show (93 : Int) * -(k : Int) = -((93 * k : Nat) : Int) by push_cast; ring, zpow_neg,
        zpow_neg, zpow_natCast, zpow_natCast, inv_pow, ← pow_mul, mul_comm k 28, pow_mul, pow_mul]
      gcongr
      norm_num
    calc ((10 : ℚ) ^ q) ^ 28 ≤ 2 ^ (93 * q) := hbase
      _ < 2 ^ (28 * e) := zpow_lt_zpow_right₀ (by norm_num) (hnegative hq)
      _ = (2 ^ e) ^ 28 := by
        rw [mul_comm, zpow_mul]
        rfl
  · refine lt_of_pow_lt_pow_left₀ 3 (by positivity) ?_
    have hbase : (((10 : ℚ) ^ q) ^ 3) ≤ 2 ^ (10 * q) := by
      obtain ⟨k, rfl⟩ := Int.eq_ofNat_of_zero_le hq
      rw [show (10 : Int) * (k : Int) = ((10 * k : Nat) : Int) by push_cast; ring, zpow_natCast,
        zpow_natCast, ← pow_mul, mul_comm k 3, pow_mul, pow_mul]
      gcongr
      norm_num
    calc ((10 : ℚ) ^ q) ^ 3 ≤ 2 ^ (10 * q) := hbase
      _ < 2 ^ (3 * e) := zpow_lt_zpow_right₀ (by norm_num) (hpositive hq)
      _ = (2 ^ e) ^ 3 := by
        rw [mul_comm, zpow_mul]
        rfl

theorem log2_le_of_small {significand : Nat} (h : significand < 2 * hiddenBit) :
    significand.log2 ≤ 52 := by
  rcases Nat.eq_zero_or_pos significand with rfl | hpos
  · decide
  · have hlt := (Nat.log2_lt (Nat.ne_of_gt hpos)).mpr (show significand < 2 ^ 53 from h)
    omega

/-- The shortest decimal of a finite double other than zero lies near it. -/
theorem shortest_near {significand : Nat} {exponent : Int}
    (hcanonical : Canonical significand exponent) (hpos : 0 < significand) :
    Near significand exponent (shortest significand exponent).value ∧
      -346 ≤ (shortest significand exponent).exponent ∧
      (shortest significand exponent).exponent ≤ 310 := by
  obtain ⟨hsmall, hleast, hgreatest, -⟩ := hcanonical
  have hlog := log2_le_of_small hsmall
  have hnonzero : (significand == 0) = false := beq_false_of_ne (Nat.ne_of_gt hpos)
  unfold shortest
  rw [if_neg (by rw [hnonzero]; exact Bool.false_ne_true)]
  have hbound : decimalBound significand exponent =
      ((significand.log2 + 1 + exponent) * 30103) / 100000 + 1 := rfl
  have hfine : (10 : ℚ) ^ (decimalBound significand exponent - 21) < 2 ^ (exponent - 1) :=
    ten_lt_two (by omega) (by omega)
  obtain ⟨hfound, hfrom, hto⟩ := search_found (neighbourhood significand exponent) 22
    (decimalBound significand exponent) (decimalBound significand exponent - 21) (by omega)
    (by omega) (onGrid?_of_fine hpos hfine)
  exact ⟨near_of_holds (holds_of_onGrid? hfound), by omega, by omega⟩

/-!
# Reading a decimal
-/

theorem Near.pos {significand : Nat} {exponent : Int} {r : ℚ} (h : Near significand exponent r)
    (hpos : 0 < significand) : 0 < r := by
  have hreach := reachDown_le significand exponent
  have hlow : 0 < 4 * significand - reachDown significand exponent := by omega
  have hlow : (0 : ℚ) < (4 * significand - reachDown significand exponent : Nat) := by
    exact_mod_cast hlow
  have hunit : (0 : ℚ) < 2 ^ (exponent - 2) := by positivity
  exact lt_of_lt_of_le (mul_pos hlow hunit) h.low

theorem Near.decimal_pos {significand n : Nat} {exponent p : Int}
    (h : Near significand exponent (n * 10 ^ p)) (hpos : 0 < significand) : 0 < n := by
  rcases Nat.eq_zero_or_pos n with rfl | hn
  · have hzero := h.pos hpos
    rw [Nat.cast_zero, zero_mul] at hzero
    exact absurd hzero (lt_irrefl _)
  · exact hn

theorem Near.bounds {significand : Nat} {exponent : Int} {r : ℚ} (h : Near significand exponent r)
    (hcanonical : Canonical significand exponent) (hpos : 0 < significand) :
    (2 : ℚ) ^ (-1075 : Int) ≤ r ∧ r ≤ 2 ^ (1024 : Int) := by
  obtain ⟨hsmall, hleast, hgreatest, -⟩ := hcanonical
  have htwo : (2 : ℚ) ≠ 0 := by norm_num
  have hreach := reachDown_le significand exponent
  have hlow : 2 ≤ 4 * significand - reachDown significand exponent := by omega
  have hlow : (2 : ℚ) ≤ (4 * significand - reachDown significand exponent : Nat) := by
    exact_mod_cast hlow
  have hhigh : 4 * significand + 2 ≤ 2 ^ 55 := by
    have hhidden := hiddenBit_eq
    omega
  have hhigh : ((4 * significand + 2 : Nat) : ℚ) ≤ 2 ^ 55 := by exact_mod_cast hhigh
  constructor
  · calc (2 : ℚ) ^ (-1075 : Int) ≤ 2 ^ (1 + (exponent - 2)) :=
          zpow_le_zpow_right₀ (by norm_num) (by omega)
      _ = 2 * 2 ^ (exponent - 2) := by rw [zpow_add₀ htwo, zpow_one]
      _ ≤ (4 * significand - reachDown significand exponent : Nat) * 2 ^ (exponent - 2) := by gcongr
      _ ≤ r := h.low
  · calc r ≤ (4 * significand + 2 : Nat) * 2 ^ (exponent - 2) := h.high
      _ ≤ 2 ^ 55 * 2 ^ (exponent - 2) := by gcongr
      _ = 2 ^ ((55 : Nat) + (exponent - 2)) := by rw [zpow_add₀ htwo, zpow_natCast]
      _ ≤ 2 ^ (1024 : Int) := zpow_le_zpow_right₀ (by norm_num) (by omega)

/-- A decimal is below a power of two if its power of ten is, by the length of its digits. -/
theorem decimal_lt_two {n : Nat} (hn : 0 < n) {p g : Int}
    (h : (10 : ℚ) ^ p < 2 ^ (g - n.log2 - 1)) : (n : ℚ) * 10 ^ p < 2 ^ g := by
  obtain ⟨-, hhigh⟩ := log2_bounds hn
  calc (n : ℚ) * 10 ^ p < 2 ^ ((n.log2 : Int) + 1) * 2 ^ (g - n.log2 - 1) := by gcongr
    _ = 2 ^ g := by
      rw [← zpow_add₀ (by norm_num)]
      congr 1
      ring

theorem two_lt_decimal {n : Nat} (hn : 0 < n) {p g : Int}
    (h : (10 : ℚ) ^ (-p) < 2 ^ (n.log2 - g)) : (2 : ℚ) ^ g < n * 10 ^ p := by
  obtain ⟨hlow, -⟩ := log2_bounds hn
  calc (2 : ℚ) ^ g = 2 ^ g * 10 ^ (-p) * 10 ^ p := by
        rw [mul_assoc, ← zpow_add₀ (by norm_num), neg_add_cancel, zpow_zero, mul_one]
    _ < 2 ^ g * 2 ^ (n.log2 - g) * 10 ^ p := by gcongr
    _ = 2 ^ (n.log2 : Int) * 10 ^ p := by
      rw [← zpow_add₀ (by norm_num)]
      congr 2
      ring
    _ ≤ n * 10 ^ p := by gcongr

/-- The reach of a number near a double stays far within what is taken for zero or infinite. -/
theorem Near.reach {significand n : Nat} {exponent p : Int}
    (hcanonical : Canonical significand exponent) (hpos : 0 < significand) (hn : 0 < n)
    (hp : -400 ≤ p) (hp' : p ≤ 400) (h : Near significand exponent (n * 10 ^ p)) :
    -400 ≤ (n.log2 : Int) * 30103 / 100000 + p ∧ (n.log2 : Int) * 30103 / 100000 + p ≤ 400 := by
  obtain ⟨hleast, hgreatest⟩ := h.bounds hcanonical hpos
  constructor
  · by_contra hsmall
    exact absurd hleast (not_le.mpr (decimal_lt_two hn (ten_lt_two (by omega) (by omega))))
  · by_contra hlarge
    exact absurd hgreatest (not_le.mpr (two_lt_decimal hn (ten_lt_two (by omega) (by omega))))

theorem ofDecimal_near (negative : Bool) {significand n : Nat} {exponent p : Int}
    (hcanonical : Canonical significand exponent) (hpos : 0 < significand)
    (hp : -400 ≤ p) (hp' : p ≤ 400) (h : Near significand exponent (n * 10 ^ p)) :
    ofDecimal negative n p = ofMagnitude negative (magnitudeBits significand exponent) := by
  have hn : 0 < n := h.decimal_pos hpos
  obtain ⟨hlow, hhigh⟩ := h.reach hcanonical hpos hn hp hp'
  have hnonzero : (n == 0) = false := beq_false_of_ne (Nat.ne_of_gt hn)
  unfold ofDecimal
  dsimp only
  rw [if_neg (by rw [hnonzero, Bool.false_or, decide_eq_true_eq]; omega), if_neg (by omega)]
  split
  · rename_i hnat
    obtain ⟨k, rfl⟩ := Int.eq_ofNat_of_zero_le hnat
    refine ofRatio_near negative (Nat.mul_pos hn (Nat.pow_pos (by decide))) Nat.one_pos
      hcanonical ?_
    rw [zpow_natCast] at h
    unfold ratio
    simpa using h
  · rename_i hneg
    obtain ⟨k, rfl⟩ : ∃ k : Nat, p = -(k : Int) := ⟨p.natAbs, by omega⟩
    refine ofRatio_near negative hn (Nat.pow_pos (by decide)) hcanonical ?_
    rw [zpow_neg, zpow_natCast] at h
    unfold ratio
    simpa [div_eq_mul_inv] using h

end Number
end ScriptEngine
