import ScriptEngine.Proofs.Number.Bits
import Mathlib.Algebra.Order.Field.Power
import Mathlib.Algebra.Order.Field.Rat
import Mathlib.Data.Nat.Cast.Order.Field
import Mathlib.Tactic.FieldSimp
import Mathlib.Tactic.GCongr
import Mathlib.Tactic.Linarith
import Mathlib.Tactic.NormNum
import Mathlib.Tactic.Positivity
import Mathlib.Tactic.Ring

/-!
# Rounding to the nearest double

A ratio is rounded on the grid of its binade. Every ratio in the neighbourhood of a finite double
rounds to that double; on the two ends of the neighbourhood the significand has to be even.
-/

namespace ScriptEngine
namespace Number

/-!
# Ratios
-/

/-- The ratio of two naturals. -/
def ratio (num den : Nat) : ℚ :=
  num / den

/-- Scaling divides by a power of two. -/
theorem ratio_scaled (num den : Nat) (e : Int) :
    ratio (scaled num den e).1 (scaled num den e).2 = ratio num den / 2 ^ e := by
  unfold scaled ratio
  split
  · rename_i he
    obtain ⟨k, rfl⟩ := Int.eq_ofNat_of_zero_le he
    simp only [Int.toNat_natCast, Nat.shiftLeft_eq, Nat.cast_mul, Nat.cast_pow, Nat.cast_ofNat,
      zpow_natCast]
    rw [div_div]
  · rename_i he
    obtain ⟨k, hk⟩ := Int.eq_ofNat_of_zero_le (show 0 ≤ -e by omega)
    have he : e = -(k : Int) := by omega
    subst he
    simp only [neg_neg, Int.toNat_natCast, Nat.shiftLeft_eq, Nat.cast_mul, Nat.cast_pow,
      Nat.cast_ofNat, zpow_neg, zpow_natCast, div_inv_eq_mul]
    ring

theorem scaled_pos {num den : Nat} (hden : 0 < den) (e : Int) : 0 < (scaled num den e).2 := by
  unfold scaled
  split
  · rw [Nat.shiftLeft_eq]
    exact Nat.mul_pos hden (Nat.two_pow_pos _)
  · exact hden

theorem le_div_iff_ratio {k num den : Nat} (hden : 0 < den) :
    k ≤ num / den ↔ (k : ℚ) ≤ ratio num den := by
  unfold ratio
  rw [Nat.le_div_iff_mul_le hden, le_div_iff₀ (by positivity)]
  exact_mod_cast Iff.rfl

/-- A ratio that lies within half a unit of a number rounds to it; a tie must find it even. -/
theorem roundHalfEven_eq {num den q : Nat} (hden : 0 < den) (hlow : (q : ℚ) - 1 / 2 ≤ ratio num den)
    (hhigh : ratio num den ≤ q + 1 / 2)
    (htie : q % 2 = 1 → (q : ℚ) - 1 / 2 < ratio num den ∧ ratio num den < q + 1 / 2) :
    roundHalfEven num den = q := by
  have hd : (0 : ℚ) < den := by exact_mod_cast hden
  have hlow' : 2 * q * den ≤ 2 * num + den := by
    unfold ratio at hlow
    rw [le_div_iff₀ hd] at hlow
    have h : (2 * q * den : ℚ) ≤ 2 * num + den := by linarith
    exact_mod_cast h
  have hhigh' : 2 * num ≤ 2 * q * den + den := by
    unfold ratio at hhigh
    rw [div_le_iff₀ hd] at hhigh
    have h : (2 * num : ℚ) ≤ 2 * q * den + den := by linarith
    exact_mod_cast h
  have htie' : q % 2 = 1 → 2 * q * den < 2 * num + den ∧ 2 * num < 2 * q * den + den := by
    intro hodd
    obtain ⟨h₁, h₂⟩ := htie hodd
    unfold ratio at h₁ h₂
    rw [lt_div_iff₀ hd] at h₁
    rw [div_lt_iff₀ hd] at h₂
    have h₁ : (2 * q * den : ℚ) < 2 * num + den := by linarith
    have h₂ : (2 * num : ℚ) < 2 * q * den + den := by linarith
    exact ⟨by exact_mod_cast h₁, by exact_mod_cast h₂⟩
  have hdivmod := Nat.div_add_mod num den
  have hmod := Nat.mod_lt num hden
  unfold roundHalfEven
  dsimp only
  generalize num / den = quotient at hdivmod ⊢
  generalize num % den = rest at hdivmod hmod ⊢
  have hle : quotient ≤ q := by
    by_contra hlt
    have hmul : den * (q + 1) ≤ den * quotient := Nat.mul_le_mul_left _ (by omega)
    nlinarith
  have hge : q ≤ quotient + 1 := by
    by_contra hlt
    have hmul : den * (quotient + 2) ≤ den * q := Nat.mul_le_mul_left _ (by omega)
    nlinarith
  rcases Nat.lt_or_eq_of_le hle with hlt | rfl
  · obtain rfl : q = quotient + 1 := by omega
    have hhalf : den ≤ 2 * rest := by nlinarith
    have hup : (den < 2 * rest || (2 * rest == den && quotient % 2 == 1)) = true := by
      rcases Nat.lt_or_eq_of_le hhalf with hmore | htied
      · simp only [hmore, decide_true, Bool.true_or]
      · have hodd : quotient % 2 = 1 := by
          by_contra heven
          have hstrict := (htie' (by omega)).1
          nlinarith
        simp only [htied, hodd, beq_self_eq_true, Bool.and_self, Bool.or_true]
    rw [if_pos hup]
  · have hhalf : 2 * rest ≤ den := by nlinarith
    have hdown : (den < 2 * rest || (2 * rest == den && quotient % 2 == 1)) = false := by
      have hmore : ¬ den < 2 * rest := by omega
      rcases Nat.mod_two_eq_zero_or_one quotient with heven | hodd
      · simp [hmore, heven]
      · have hstrict := (htie' hodd).2
        have hne : ¬ 2 * rest = den := by
          intro htied
          nlinarith
        simp [hmore, hne]
    rw [if_neg (by rw [hdown]; exact Bool.false_ne_true)]

/-!
# Binades
-/

/-- The exponent with which a ratio is rounded. -/
structure InBinade (r : ℚ) (e : Int) : Prop where
  least : -1074 ≤ e
  upper : r < 2 ^ 53 * 2 ^ e
  lower : 2 ^ 52 * 2 ^ e ≤ r ∨ e = -1074

theorem InBinade.unique {r : ℚ} {e e' : Int} (h : InBinade r e) (h' : InBinade r e') : e = e' := by
  have hle : ∀ {e e' : Int}, InBinade r e → InBinade r e' → e' ≤ e := by
    intro e e' h h'
    by_contra hlt
    have hstep : (2 : ℚ) ^ (e + 1) ≤ 2 ^ e' := zpow_le_zpow_right₀ (by norm_num) (by omega)
    rw [zpow_add₀ (by norm_num), zpow_one] at hstep
    rcases h'.lower with hlower | hleast
    · have hupper := h.upper
      linarith
    · have hleast' := h.least
      omega
  exact le_antisymm (hle h' h) (hle h h')

theorem log2_bounds {n : Nat} (hn : 0 < n) :
    (2 : ℚ) ^ (n.log2 : Int) ≤ n ∧ (n : ℚ) < 2 ^ ((n.log2 : Int) + 1) := by
  have hlow : 2 ^ n.log2 ≤ n := Nat.log2_self_le (Nat.ne_of_gt hn)
  have hhigh : n < 2 ^ (n.log2 + 1) := Nat.lt_log2_self
  constructor
  · rw [zpow_natCast]
    exact_mod_cast hlow
  · rw [show (n.log2 : Int) + 1 = ((n.log2 + 1 : Nat) : Int) by omega, zpow_natCast]
    exact_mod_cast hhigh

theorem ratio_bounds {num den : Nat} (hnum : 0 < num) (hden : 0 < den) :
    (2 : ℚ) ^ ((num.log2 : Int) - den.log2 - 1) < ratio num den ∧
      ratio num den < 2 ^ ((num.log2 : Int) - den.log2 + 1) := by
  obtain ⟨hnlow, hnhigh⟩ := log2_bounds hnum
  obtain ⟨hdlow, hdhigh⟩ := log2_bounds hden
  have hd : (0 : ℚ) < den := by exact_mod_cast hden
  unfold ratio
  constructor
  · rw [lt_div_iff₀ hd]
    calc (2 : ℚ) ^ ((num.log2 : Int) - den.log2 - 1) * den
        < 2 ^ ((num.log2 : Int) - den.log2 - 1) * 2 ^ ((den.log2 : Int) + 1) := by gcongr
      _ = 2 ^ (num.log2 : Int) := by
        rw [← zpow_add₀ (by norm_num)]
        congr 1
        ring
      _ ≤ num := hnlow
  · rw [div_lt_iff₀ hd]
    calc (num : ℚ) < 2 ^ ((num.log2 : Int) + 1) := hnhigh
      _ = 2 ^ ((num.log2 : Int) - den.log2 + 1) * 2 ^ (den.log2 : Int) := by
        rw [← zpow_add₀ (by norm_num)]
        congr 1
        ring
      _ ≤ 2 ^ ((num.log2 : Int) - den.log2 + 1) * den := by gcongr

/-- The exponent with which a ratio is first tried. -/
def firstExponent (num den : Nat) : Int :=
  max ((num.log2 : Int) - den.log2 - 53) (-1074)

/-- The exponent with which a ratio is rounded in the end. -/
def lastExponent (num den : Nat) : Int :=
  let first := firstExponent num den
  if 2 * hiddenBit ≤ (scaled num den first).1 / (scaled num den first).2 then first + 1 else first

theorem lastExponent_inBinade {num den : Nat} (hnum : 0 < num) (hden : 0 < den) :
    InBinade (ratio num den) (lastExponent num den) := by
  obtain ⟨hlow, hhigh⟩ := ratio_bounds hnum hden
  have hhidden : ((2 * hiddenBit : Nat) : ℚ) = 2 ^ 53 := by norm_num [hiddenBit]
  have htwo : (2 : ℚ) ≠ 0 := by norm_num
  have htest : ∀ e, 2 * hiddenBit ≤ (scaled num den e).1 / (scaled num den e).2 ↔
      2 ^ 53 * 2 ^ e ≤ ratio num den := by
    intro e
    rw [le_div_iff_ratio (scaled_pos hden _), ratio_scaled, hhidden, le_div_iff₀ (by positivity)]
  unfold lastExponent
  dsimp only
  have hleast : -1074 ≤ firstExponent num den := le_max_right _ _
  have hguess : (num.log2 : Int) - den.log2 - 53 ≤ firstExponent num den := le_max_left _ _
  have hfirst : firstExponent num den = (num.log2 : Int) - den.log2 - 53 ∨
      firstExponent num den = -1074 := by
    unfold firstExponent
    omega
  generalize firstExponent num den = e at hleast hguess hfirst ⊢
  split
  · rename_i hfull
    refine ⟨by omega, ?_, .inl ?_⟩
    · calc ratio num den < 2 ^ ((num.log2 : Int) - den.log2 + 1) := hhigh
        _ ≤ 2 ^ ((53 : Nat) + (e + 1)) := zpow_le_zpow_right₀ (by norm_num) (by omega)
        _ = 2 ^ 53 * 2 ^ (e + 1) := by rw [zpow_add₀ htwo, zpow_natCast]
    · calc (2 : ℚ) ^ 52 * 2 ^ (e + 1) = 2 ^ 53 * 2 ^ e := by
            rw [zpow_add₀ htwo, zpow_one]
            ring
        _ ≤ ratio num den := (htest e).mp hfull
  · rename_i hfull
    refine ⟨hleast, not_le.mp (fun h => hfull ((htest e).mpr h)), ?_⟩
    rcases hfirst with he | he
    · refine .inl (le_of_lt ?_)
      calc (2 : ℚ) ^ 52 * 2 ^ e = 2 ^ ((52 : Nat) + e) := by rw [zpow_add₀ htwo, zpow_natCast]
        _ = 2 ^ ((num.log2 : Int) - den.log2 - 1) := by
          congr 1
          omega
        _ < ratio num den := hlow
    · exact .inr he

theorem ofRatio_inBinade (negative : Bool) {num den : Nat} {e : Int} (hnum : 0 < num)
    (hden : 0 < den) (h : InBinade (ratio num den) e) :
    ofRatio negative num den =
      (let bits := magnitudeBits (roundHalfEven (scaled num den e).1 (scaled num den e).2) e
       if 0x7FF * hiddenBit ≤ bits then infinity negative else ofMagnitude negative bits) := by
  have hnonzero : (num == 0) = false := beq_false_of_ne (Nat.ne_of_gt hnum)
  obtain rfl : lastExponent num den = e := (lastExponent_inBinade hnum hden).unique h
  unfold ofRatio
  rw [hnonzero]
  rfl

/-!
# Neighbourhoods
-/

/-- How far, in quarters of the last place, the neighbourhood of a double reaches down. -/
def reachDown (significand : Nat) (exponent : Int) : Nat :=
  if significand == hiddenBit && -1074 < exponent then 1 else 2

/-- That a ratio lies among those that are nearer to `significand · 2^exponent` than to any other
double. -/
structure Near (significand : Nat) (exponent : Int) (r : ℚ) : Prop where
  low : ((4 * significand - reachDown significand exponent : Nat) : ℚ) * 2 ^ (exponent - 2) ≤ r
  high : r ≤ (4 * significand + 2 : Nat) * 2 ^ (exponent - 2)
  inside : significand % 2 = 1 →
    ((4 * significand - reachDown significand exponent : Nat) : ℚ) * 2 ^ (exponent - 2) < r ∧
      r < (4 * significand + 2 : Nat) * 2 ^ (exponent - 2)

theorem reachDown_le (significand : Nat) (exponent : Int) : reachDown significand exponent ≤ 2 := by
  unfold reachDown
  split
  · omega
  · exact le_rfl

/-- A quarter of the last place, as a ratio. -/
theorem quarter (k : Nat) (e : Int) : (k : ℚ) * 2 ^ (e - 2) = k / 4 * 2 ^ e := by
  rw [zpow_sub₀ (by norm_num)]
  ring

theorem Near.halves {significand : Nat} {exponent : Int} {r : ℚ} (h : Near significand exponent r) :
    ((significand : ℚ) - 1 / 2) * 2 ^ exponent ≤ r ∧
      r ≤ (significand + 1 / 2) * 2 ^ exponent ∧
      (significand % 2 = 1 → ((significand : ℚ) - 1 / 2) * 2 ^ exponent < r ∧
        r < (significand + 1 / 2) * 2 ^ exponent) := by
  obtain ⟨hlow, hhigh, hinside⟩ := h
  rw [quarter] at hlow hhigh hinside
  rw [quarter] at hinside
  have hpos : (0 : ℚ) < 2 ^ exponent := by positivity
  have hdown : ((significand : ℚ) - 1 / 2) * 2 ^ exponent ≤
      ((4 * significand - reachDown significand exponent : Nat) : ℚ) / 4 * 2 ^ exponent := by
    have hreach := reachDown_le significand exponent
    have hnat : 4 * significand ≤ (4 * significand - reachDown significand exponent) + 2 := by omega
    have hrat : (4 * significand : ℚ) ≤
        (4 * significand - reachDown significand exponent : Nat) + 2 := by exact_mod_cast hnat
    gcongr
    linarith
  have hup : ((4 * significand + 2 : Nat) : ℚ) / 4 * 2 ^ exponent =
      (significand + 1 / 2) * 2 ^ exponent := by
    push_cast
    ring
  rw [hup] at hhigh hinside
  refine ⟨le_trans hdown hlow, hhigh, ?_⟩
  intro hodd
  exact ⟨lt_of_le_of_lt hdown (hinside hodd).1, (hinside hodd).2⟩

/-- A ratio near a double rounds to it. -/
theorem ofRatio_near (negative : Bool) {num den significand : Nat} {exponent : Int}
    (hnum : 0 < num) (hden : 0 < den) (hcanonical : Canonical significand exponent)
    (hnear : Near significand exponent (ratio num den)) :
    ofRatio negative num den = ofMagnitude negative (magnitudeBits significand exponent) := by
  obtain ⟨hsmall, hleast, hgreatest, hnormal⟩ := id hcanonical
  obtain ⟨hlow, hhigh, hodd⟩ := hnear.halves
  have hpos : (0 : ℚ) < 2 ^ exponent := by positivity
  have hhidden := hiddenBit_eq
  have hupper : ratio num den < 2 ^ 53 * 2 ^ exponent := by
    have hlt : (significand : ℚ) + 1 ≤ 2 ^ 53 := by exact_mod_cast hsmall
    calc ratio num den ≤ (significand + 1 / 2) * 2 ^ exponent := hhigh
      _ < 2 ^ 53 * 2 ^ exponent := by
        gcongr
        linarith
  have hbits := magnitudeBits_lt hcanonical
  by_cases hbinade : 2 ^ 52 * 2 ^ exponent ≤ ratio num den ∨ exponent = -1074
  · -- The ratio is rounded on the grid of the double itself.
    rw [ofRatio_inBinade negative hnum hden ⟨hleast, hupper, hbinade⟩,
      roundHalfEven_eq (scaled_pos hden _) (q := significand)]
    · exact if_neg (Nat.not_le_of_lt hbits)
    · rw [ratio_scaled, le_div_iff₀ hpos]
      exact hlow
    · rw [ratio_scaled, div_le_iff₀ hpos]
      exact hhigh
    · intro h
      rw [ratio_scaled, lt_div_iff₀ hpos, div_lt_iff₀ hpos]
      exact hodd h
  · -- The double is a power of two and the ratio lies below it, on a finer grid.
    obtain ⟨hbelow, hexponent⟩ := not_or.mp hbinade
    have hbelow := not_le.mp hbelow
    have hpower : significand = hiddenBit := by
      by_contra hne
      have hmore : 2 ^ 52 + 1 ≤ significand := by omega
      have hmore : (2 ^ 52 + 1 : ℚ) ≤ significand := by exact_mod_cast hmore
      have hge : (2 : ℚ) ^ 52 * 2 ^ exponent ≤ ratio num den := by
        calc (2 : ℚ) ^ 52 * 2 ^ exponent ≤ (significand - 1 / 2) * 2 ^ exponent := by
              gcongr
              linarith
          _ ≤ ratio num den := hlow
      exact absurd hge (not_le.mpr hbelow)
    have hhalf : (2 : ℚ) ^ exponent = 2 * 2 ^ (exponent - 1) := by
      rw [zpow_sub₀ (by norm_num), zpow_one]
      ring
    have hreach : reachDown significand exponent = 1 := by
      unfold reachDown
      rw [hpower, if_pos (by simp only [beq_self_eq_true, Bool.true_and, decide_eq_true_eq]; omega)]
    have habove : (2 ^ 53 - 1 / 2 : ℚ) * 2 ^ (exponent - 1) ≤ ratio num den := by
      have hquarter := hnear.low
      rw [quarter, hreach, hpower, hhalf, hhidden] at hquarter
      refine le_trans (le_of_eq ?_) hquarter
      push_cast
      ring
    have hpos' : (0 : ℚ) < 2 ^ (exponent - 1) := by positivity
    have hupper' : ratio num den < 2 ^ 53 * 2 ^ (exponent - 1) := by
      calc ratio num den < 2 ^ 52 * 2 ^ exponent := hbelow
        _ = 2 ^ 53 * 2 ^ (exponent - 1) := by
          rw [hhalf]
          ring
    have hlower' : 2 ^ 52 * 2 ^ (exponent - 1) ≤ ratio num den := by
      refine le_trans ?_ habove
      gcongr
      norm_num
    have hcast : ((2 * hiddenBit : Nat) : ℚ) = 2 ^ 53 := by norm_num [hiddenBit]
    rw [ofRatio_inBinade negative hnum hden ⟨by omega, hupper', .inl hlower'⟩,
      roundHalfEven_eq (scaled_pos hden _) (q := 2 * hiddenBit)]
    · have hsame : magnitudeBits (2 * hiddenBit) (exponent - 1) =
          magnitudeBits significand exponent := by
        rw [magnitudeBits_normal (by omega), magnitudeBits_normal (by omega)]
        omega
      rw [hsame]
      exact if_neg (Nat.not_le_of_lt hbits)
    · rw [ratio_scaled, le_div_iff₀ hpos', hcast]
      exact habove
    · rw [ratio_scaled, div_le_iff₀ hpos', hcast]
      refine le_trans (le_of_lt hupper') ?_
      gcongr
      norm_num
    · intro h
      omega

end Number
end ScriptEngine
