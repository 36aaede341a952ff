import ScriptEngine.Number.Binary
import Mathlib.Algebra.Ring.Nat

/-!
# The bits of a number

The bit pattern of a double is a sign, an exponent field and a fraction, one above the other. Every
pattern but those of the undefined number stands for a double of its own, and reading a double
gives back what its pattern says. A natural number below `2^53` is a double: its significand is the
number shifted to full length, and the machine word that the double is truncated to is the number again.
-/

namespace ScriptEngine
namespace Number

open Float.Model (Format totalExponent UnpackedFloat)
open Float.Model.UnpackedFloat

/-!
# Fields of a pattern
-/

section
variable (v : BitVec Format.binary64.numBits)

theorem toNat_unpackMantissa : (unpackMantissa v).toNat = v.toNat % 2 ^ 52 := by
  simp [unpackMantissa, BitVec.extractLsb_toNat]

theorem toNat_unpackExponent : (unpackExponent v).toNat = v.toNat / 2 ^ 52 % 2 ^ 11 := by
  simp [unpackExponent, BitVec.extractLsb_toNat, Nat.shiftRight_eq_div_pow]

theorem toNat_unpackSign : (unpackSign v).toNat = v.toNat / 2 ^ 63 := by
  have hlt : v.toNat < 2 ^ 64 := v.isLt
  show (BitVec.extractLsb 63 63 v).toNat = v.toNat / 2 ^ 63
  rw [BitVec.extractLsb_toNat, Nat.shiftRight_eq_div_pow]
  omega

end

theorem toNat_packComponents (s : Sign) (e : BitVec 11) (f : BitVec 52) :
    (packComponents Format.binary64 s e f).toNat =
      s.toBitVec.toNat * 2 ^ 63 + e.toNat * 2 ^ 52 + f.toNat := by
  unfold packComponents
  rw [BitVec.toNat_append, BitVec.toNat_append, ← Nat.shiftLeft_add_eq_or_of_lt e.isLt,
    ← Nat.shiftLeft_add_eq_or_of_lt f.isLt, Nat.shiftLeft_eq, Nat.shiftLeft_eq]
  omega

theorem toBitVec_ofBitVec (b : BitVec 1) : (Sign.ofBitVec b).toBitVec = b := by
  revert b
  decide

/-- The fields of a pattern make up the pattern. -/
theorem packComponents_unpack (v : BitVec Format.binary64.numBits) :
    packComponents Format.binary64 (Sign.ofBitVec (unpackSign v)) (unpackExponent v)
      (unpackMantissa v) = v := by
  have hlt : v.toNat < 2 ^ 64 := v.isLt
  apply BitVec.eq_of_toNat_eq
  rw [toNat_packComponents, toBitVec_ofBitVec, toNat_unpackSign, toNat_unpackExponent,
    toNat_unpackMantissa]
  omega

/-- A pattern that does not stand for the undefined number comes back from what it stands for. -/
theorem pack_unpack {v : BitVec Format.binary64.numBits}
    (h : unpackExponent v = -1#_ → unpackMantissa v = 0#_) :
    pack Format.binary64 (unpack Format.binary64 v) = v := by
  have hexponent := toNat_unpackExponent v
  have hmantissa := toNat_unpackMantissa v
  have hpack := packComponents_unpack v
  have hbias : Format.binary64.exponentBias = 1023 := rfl
  unfold unpack
  dsimp only
  by_cases hfull : unpackExponent v = -1#_
  · rw [if_pos hfull, if_pos (h hfull)]
    rw [hfull, h hfull] at hpack
    exact hpack
  have hne : (unpackExponent v).toNat ≠ 2047 := fun heq => hfull (BitVec.eq_of_toNat_eq heq)
  have hlt : (unpackExponent v).toNat < 2 ^ 11 := (unpackExponent v).isLt
  have hsmall : (unpackMantissa v).toNat < 2 ^ 52 := (unpackMantissa v).isLt
  rw [if_neg hfull]
  by_cases hzero : unpackExponent v = 0#_
  · rw [if_pos hzero]
    by_cases hnone : unpackMantissa v = 0#_
    · rw [dif_pos hnone]
      rw [hzero, hnone] at hpack
      exact hpack
    · rw [dif_neg hnone]
      have hlog : ¬ (unpackMantissa v).toNat.log2 + 1 = Format.binary64.mantissaBits := by
        have hlt : (unpackMantissa v).toNat.log2 < 52 := by
          refine (Nat.log2_lt ?_).mpr hsmall
          intro heq
          exact hnone (BitVec.eq_of_toNat_eq heq)
        have hbits : Format.binary64.mantissaBits = 53 := rfl
        omega
      unfold pack
      dsimp only
      rw [if_neg ?_, if_neg hlog, BitVec.ofNat_toNat, BitVec.setWidth_eq]
      · rw [hzero] at hpack
        exact hpack
      · rw [hzero, hbias]
        decide
  · rw [if_neg hzero]
    have hvalue : (1#1 ++ unpackMantissa v).toNat = 2 ^ 52 + (unpackMantissa v).toNat := by
      rw [BitVec.toNat_append, ← Nat.shiftLeft_add_eq_or_of_lt (unpackMantissa v).isLt]
      rfl
    have hlog : (1#1 ++ unpackMantissa v).toNat.log2 + 1 = Format.binary64.mantissaBits := by
      rw [hvalue]
      have hlower : 52 ≤ (2 ^ 52 + (unpackMantissa v).toNat).log2 :=
        (Nat.le_log2 (by omega)).mpr (by omega)
      have hupper : (2 ^ 52 + (unpackMantissa v).toNat).log2 < 53 :=
        (Nat.log2_lt (by omega)).mpr (by omega)
      have hbits : Format.binary64.mantissaBits = 53 := rfl
      omega
    have hback : (((unpackExponent v).toNat : Int) - (Format.binary64.exponentBias +
        Format.binary64.mantissaBitsWithoutImplicit) + Format.binary64.exponentBias +
        Format.binary64.mantissaBitsWithoutImplicit).toNat = (unpackExponent v).toNat := by
      omega
    have hfits : ¬ 2 ^ Format.binary64.exponentBits ≤ (unpackExponent v).toNat + 1 := by
      show ¬ 2 ^ 11 ≤ (unpackExponent v).toNat + 1
      omega
    unfold pack
    dsimp only
    rw [hback, if_neg hfits, if_pos hlog, BitVec.ofNat_toNat, BitVec.setWidth_eq]
    have hfraction : BitVec.ofNat Format.binary64.mantissaBitsWithoutImplicit
        (1#1 ++ unpackMantissa v).toNat = unpackMantissa v := by
      apply BitVec.eq_of_toNat_eq
      rw [BitVec.toNat_ofNat, hvalue]
      show (2 ^ 52 + (unpackMantissa v).toNat) % 2 ^ 52 = _
      omega
    rw [hfraction]
    exact hpack

/-!
# Doubles and their patterns
-/

/-- A double is known by its pattern. -/
theorem eq_of_toBits_eq {x y : Float} (h : x.toBits = y.toBits) : x = y := by
  obtain ⟨⟨a, ha⟩⟩ := x
  obtain ⟨⟨b, hb⟩⟩ := y
  have h : a = b := h
  subst h
  rfl

/-- The exponent field of a pattern. -/
def fieldOf (bits : Nat) : Nat :=
  bits / 2 ^ 52 % 2 ^ 11

theorem toBits_ofBits {b : UInt64} (h : fieldOf b.toNat = 2047 → b.toNat % 2 ^ 52 = 0) :
    (Float.ofBits b).toBits = b := by
  show UInt64.ofBitVec (pack Format.binary64 (unpack Format.binary64 b.toBitVec)) = b
  rw [pack_unpack]
  intro hfull
  apply BitVec.eq_of_toNat_eq
  rw [toNat_unpackMantissa]
  refine h ?_
  have hfield := toNat_unpackExponent b.toBitVec
  rw [hfull] at hfield
  exact hfield.symm

/-- There is one undefined number. -/
theorem eq_undefined {x : Float} (hfield : fieldOf x.toBits.toNat = 2047)
    (hfraction : x.toBits.toNat % 2 ^ 52 ≠ 0) : x = undefined := by
  apply eq_of_toBits_eq
  obtain ⟨⟨bits, hvalid⟩⟩ := x
  have hcanonical : bits.toBitVec = packedNaN Format.binary64 := by
    refine hvalid.eq_packedNaN ?_ ?_
    · apply BitVec.eq_of_toNat_eq
      rw [toNat_unpackExponent]
      exact hfield
    · intro hzero
      have hnone := toNat_unpackMantissa bits.toBitVec
      rw [hzero] at hnone
      exact hfraction hnone.symm
  have hundefined : undefined.toBits.toBitVec = packedNaN Format.binary64 := by decide
  exact UInt64.toBitVec_inj.mp (hcanonical.trans hundefined.symm)

theorem isNegative_eq (x : Float) : isNegative x = decide (2 ^ 63 ≤ x.toBits.toNat) := by
  have hlt := x.toBits.toNat_lt
  have hshift : (x.toBits >>> 63).toNat = x.toBits.toNat / 2 ^ 63 := by
    rw [UInt64.toNat_shiftRight]
    exact Nat.shiftRight_eq_div_pow _ _
  unfold isNegative
  rw [Bool.eq_iff_iff, beq_iff_eq, decide_eq_true_eq, ← UInt64.toNat_inj, hshift]
  show x.toBits.toNat / 2 ^ 63 = 1 ↔ _
  omega

/-- What a pattern stands for. -/
def anatomyOf (bits : Nat) : Anatomy :=
  let negative := decide (2 ^ 63 ≤ bits)
  if fieldOf bits = 2047 then
    if bits % 2 ^ 52 = 0 then .infinite negative else .undefined
  else if fieldOf bits = 0 then .finite negative (bits % 2 ^ 52) (-1074)
  else .finite negative (bits % 2 ^ 52 + hiddenBit) ((fieldOf bits : Int) - 1075)

theorem anatomy_eq (x : Float) : anatomy x = anatomyOf x.toBits.toNat := by
  have hfield : ((x.toBits >>> 52) &&& 0x7FF).toNat = fieldOf x.toBits.toNat := by
    rw [UInt64.toNat_and, UInt64.toNat_shiftRight]
    show (x.toBits.toNat >>> 52) &&& (2 ^ 11 - 1) = _
    rw [Nat.and_two_pow_sub_one_eq_mod, Nat.shiftRight_eq_div_pow]
    rfl
  have hfraction : (x.toBits &&& 0xFFFFFFFFFFFFF).toNat = x.toBits.toNat % 2 ^ 52 := by
    rw [UInt64.toNat_and]
    show x.toBits.toNat &&& (2 ^ 52 - 1) = _
    rw [Nat.and_two_pow_sub_one_eq_mod]
  unfold anatomy anatomyOf
  simp only [hfield, hfraction, isNegative_eq, beq_iff_eq]

/-!
# Magnitudes

A finite double in lowest form has a significand of at most 53 bits, and of exactly that many unless
its exponent is the least one. Its magnitude bits count the doubles from zero on.
-/

/-- Significand and exponent are those of a double. -/
structure Canonical (significand : Nat) (exponent : Int) : Prop where
  small : significand < 2 * hiddenBit
  least : -1074 ≤ exponent
  greatest : exponent ≤ 971
  normal : hiddenBit ≤ significand ∨ exponent = -1074

/-- The pattern of `significand · 2^exponent` without a sign. -/
def magnitudeBits (significand : Nat) (exponent : Int) : Nat :=
  if significand < hiddenBit then significand
  else (exponent + 1075).toNat * hiddenBit + (significand - hiddenBit)

theorem hiddenBit_eq : hiddenBit = 0x10000000000000 := rfl

theorem magnitudeBits_small {significand : Nat} (h : significand < hiddenBit) (exponent : Int) :
    magnitudeBits significand exponent = significand :=
  if_pos h

theorem magnitudeBits_normal {significand : Nat} (h : hiddenBit ≤ significand) (exponent : Int) :
    magnitudeBits significand exponent =
      (exponent + 1075).toNat * 0x10000000000000 + (significand - 0x10000000000000) :=
  if_neg (Nat.not_lt_of_le h)

theorem toBits_ofMagnitude (negative : Bool) {bits : Nat} (h : bits ≤ 0x7FF * hiddenBit) :
    (ofMagnitude negative bits).toBits.toNat = (if negative then 2 ^ 63 else 0) + bits := by
  have hhidden := hiddenBit_eq
  have hpattern : (UInt64.ofNat (if negative then bits + 0x8000000000000000 else bits)).toNat =
      (if negative then 2 ^ 63 else 0) + bits := by
    rw [UInt64.toNat_ofNat']
    cases negative
    · simp only [Bool.false_eq_true, if_false]
      omega
    · simp only [if_true]
      omega
  unfold ofMagnitude
  rw [toBits_ofBits, hpattern]
  rw [hpattern]
  unfold fieldOf
  cases negative
  · simp only [Bool.false_eq_true, if_false]
    omega
  · simp only [if_true]
    omega

theorem magnitudeBits_lt {significand : Nat} {exponent : Int} (h : Canonical significand exponent) :
    magnitudeBits significand exponent < 0x7FF * hiddenBit := by
  obtain ⟨hsmall, hleast, hgreatest, -⟩ := h
  have hhidden := hiddenBit_eq
  rcases Nat.lt_or_ge significand hiddenBit with hsub | hnormal
  · rw [magnitudeBits_small hsub]
    omega
  · rw [magnitudeBits_normal hnormal]
    omega

/-- A finite double is known by its sign, significand and exponent. -/
theorem anatomy_ofMagnitude (negative : Bool) {significand : Nat} {exponent : Int}
    (h : Canonical significand exponent) :
    anatomy (ofMagnitude negative (magnitudeBits significand exponent)) =
      .finite negative significand exponent := by
  have hhidden := hiddenBit_eq
  rw [anatomy_eq, toBits_ofMagnitude negative (Nat.le_of_lt (magnitudeBits_lt h))]
  have hlt := magnitudeBits_lt h
  obtain ⟨hsmall, hleast, hgreatest, hnormal⟩ := h
  have hnegative : ∀ bits < 0x7FF * hiddenBit,
      decide (2 ^ 63 ≤ (if negative then 2 ^ 63 else 0) + bits) = negative ∧
      fieldOf ((if negative then 2 ^ 63 else 0) + bits) = bits / 2 ^ 52 ∧
      ((if negative then 2 ^ 63 else 0) + bits) % 2 ^ 52 = bits % 2 ^ 52 := by
    intro bits hbits
    unfold fieldOf
    cases negative
    · simp only [Bool.false_eq_true, if_false, decide_eq_false_iff_not]
      omega
    · simp only [if_true, decide_eq_true_eq]
      omega
  obtain ⟨hsign, hfield, hfraction⟩ := hnegative _ hlt
  unfold anatomyOf
  simp only [hsign, hfield, hfraction]
  clear hsign hfield hfraction hnegative
  rcases Nat.lt_or_ge significand hiddenBit with hsub | hge
  · have hexponent : exponent = -1074 := by omega
    rw [magnitudeBits_small hsub, if_neg (by omega), if_pos (by omega), hexponent,
      Nat.mod_eq_of_lt (by omega)]
  · rw [magnitudeBits_normal hge] at hlt ⊢
    have hfield : ((exponent + 1075).toNat * 0x10000000000000 +
        (significand - 0x10000000000000)) / 2 ^ 52 = (exponent + 1075).toNat := by omega
    have hfraction : ((exponent + 1075).toNat * 0x10000000000000 +
        (significand - 0x10000000000000)) % 2 ^ 52 = significand - 0x10000000000000 := by omega
    rw [hfield, hfraction, if_neg (by omega), if_neg (by omega), hhidden,
      Nat.sub_add_cancel (hhidden ▸ hge), Int.toNat_of_nonneg (by omega), Int.add_sub_cancel]

/-- The sign is what lies above the magnitude. -/
theorem sign_add (bits : Nat) (hlt : bits < 2 ^ 64) :
    (if decide (2 ^ 63 ≤ bits) then 2 ^ 63 else 0) + bits % 2 ^ 63 = bits := by
  by_cases hsign : 2 ^ 63 ≤ bits
  · rw [if_pos (decide_eq_true hsign)]
    omega
  · rw [if_neg (by rw [decide_eq_false hsign]; exact Bool.false_ne_true)]
    omega

theorem eq_ofMagnitude {x : Float} {negative : Bool} {significand : Nat} {exponent : Int}
    (h : anatomy x = .finite negative significand exponent) :
    Canonical significand exponent ∧
      x = ofMagnitude negative (magnitudeBits significand exponent) := by
  have hlt := x.toBits.toNat_lt
  have hsign := sign_add _ hlt
  have hhidden := hiddenBit_eq
  rw [anatomy_eq] at h
  unfold anatomyOf fieldOf at h
  dsimp only at h
  have hcanonical : Canonical significand exponent ∧
      decide (2 ^ 63 ≤ x.toBits.toNat) = negative ∧
      magnitudeBits significand exponent = x.toBits.toNat % 2 ^ 63 := by
    split at h
    · split at h <;> cases h
    · split at h
      · cases h
        refine ⟨⟨by omega, by omega, by omega, Or.inr rfl⟩, rfl, ?_⟩
        rw [magnitudeBits_small (by omega)]
        omega
      · cases h
        refine ⟨⟨by omega, by omega, by omega, Or.inl (by omega)⟩, rfl, ?_⟩
        rw [magnitudeBits_normal (by omega)]
        omega
  obtain ⟨hcanonical, rfl, hbits⟩ := hcanonical
  refine ⟨hcanonical, eq_of_toBits_eq (UInt64.toNat_inj.mp ?_)⟩
  rw [toBits_ofMagnitude _ (Nat.le_of_lt (magnitudeBits_lt hcanonical)), hbits, hsign]

theorem eq_infinity {x : Float} {negative : Bool} (h : anatomy x = .infinite negative) :
    x = infinity negative := by
  have hlt := x.toBits.toNat_lt
  have hsign := sign_add _ hlt
  rw [anatomy_eq] at h
  unfold anatomyOf fieldOf at h
  dsimp only at h
  split at h
  · split at h
    · cases h
      have hhidden := hiddenBit_eq
      have hbits : 0x7FF * hiddenBit = x.toBits.toNat % 2 ^ 63 := by omega
      apply eq_of_toBits_eq
      apply UInt64.toNat_inj.mp
      unfold infinity
      rw [toBits_ofMagnitude _ (Nat.le_refl _), hbits, hsign]
    · cases h
  · split at h <;> cases h

theorem eq_undefined_of_anatomy {x : Float} (h : anatomy x = .undefined) : x = undefined := by
  rw [anatomy_eq] at h
  unfold anatomyOf at h
  dsimp only at h
  split at h
  · rename_i hfield
    split at h
    · cases h
    · rename_i hfraction
      exact eq_undefined hfield hfraction
  · split at h <;> cases h

/-!
# Significands of full length
-/

/-- A significand of full length needs no shift. -/
theorem shiftToTarget_full {m : Nat} {e : Int} (hlog : m.log2 = 52) (he : -1074 ≤ e) :
    shiftToTargetExponent Format.binary64 m e .exact = (⟨m, false, false⟩, e) := by
  have htarget : Format.binary64.targetExponent (totalExponent m e) = e := by
    unfold Float.Model.Format.targetExponent totalExponent
    rw [hlog]
    have hbits : Format.binary64.mantissaBits = 53 := rfl
    have hmin : Format.binary64.minExponent = -1074 := rfl
    rw [hbits, hmin]
    omega
  unfold shiftToTargetExponent shiftToExponent
  rw [htarget]
  dsimp only
  rw [Int.sub_self]
  show ((_ : ExtendedMantissa), e + 0) = _
  rw [Int.add_zero]
  rfl

theorem round_full {m : Nat} {e : Int} (s : Sign) (hlog : m.log2 = 52) (he : -1074 ≤ e)
    (hpos : 0 < m) :
    roundWithAccuracy Format.binary64 s m e .exact = .finite s m e hpos := by
  have hrounded : ExtendedMantissa.roundedMantissa ⟨m, false, false⟩ = m := rfl
  unfold roundWithAccuracy
  rw [shiftToTarget_full hlog he]
  dsimp only
  rw [hrounded, shiftToTarget_full hlog he]
  exact dif_neg (Nat.ne_of_gt hpos)

theorem log2_full {m : Nat} (hlow : 2 ^ 52 ≤ m) (hhigh : m < 2 ^ 53) : m.log2 = 52 := by
  have hge : 52 ≤ m.log2 := (Nat.le_log2 (by omega)).mpr hlow
  have hlt : m.log2 < 53 := (Nat.log2_lt (by omega)).mpr hhigh
  omega

theorem toNat_pack_full {m : Nat} {e : Int} (hlow : 2 ^ 52 ≤ m) (hhigh : m < 2 ^ 53)
    (hleast : -1074 ≤ e) (hgreatest : e ≤ 971) (hpos : 0 < m) :
    (UnpackedFloat.pack Format.binary64 (.finite .positive m e hpos)).toNat = magnitudeBits m e := by
  have hhidden := hiddenBit_eq
  have hbias : Format.binary64.exponentBias = 1023 := rfl
  have hfits : ¬ 2 ^ 11 ≤ (e + (Format.binary64.exponentBias : Nat) + (52 : Nat)).toNat + 1 := by
    rw [hbias]
    omega
  have hlog : m.log2 + 1 = Format.binary64.mantissaBits := by
    rw [log2_full hlow hhigh]
    rfl
  rw [magnitudeBits_normal (by omega)]
  unfold UnpackedFloat.pack
  dsimp only
  rw [if_neg hfits, if_pos hlog, toNat_packComponents, BitVec.toNat_ofNat, BitVec.toNat_ofNat,
    hbias]
  show 0 * 2 ^ 63 + (e + (1023 : Nat) + (52 : Nat)).toNat % 2 ^ 11 * 2 ^ 52 + m % 2 ^ 52 = _
  omega

/-- The significand of a natural number, shifted to full length. -/
theorem full_length {n : Nat} (hpos : 0 < n) (h : n < 2 ^ 53) :
    n.log2 ≤ 52 ∧ 2 ^ 52 ≤ n <<< (52 - n.log2) ∧ n <<< (52 - n.log2) < 2 ^ 53 := by
  have hle : n.log2 ≤ 52 := Nat.le_of_lt_succ ((Nat.log2_lt (Nat.ne_of_gt hpos)).mpr h)
  have hlow : 2 ^ n.log2 ≤ n := Nat.log2_self_le (Nat.ne_of_gt hpos)
  have hhigh : n < 2 ^ (n.log2 + 1) := Nat.lt_log2_self
  refine ⟨hle, ?_, ?_⟩
  · rw [Nat.shiftLeft_eq]
    calc 2 ^ 52 = 2 ^ n.log2 * 2 ^ (52 - n.log2) := by rw [← Nat.pow_add, Nat.add_sub_cancel' hle]
      _ ≤ n * 2 ^ (52 - n.log2) := Nat.mul_le_mul_right _ hlow
  · rw [Nat.shiftLeft_eq]
    calc n * 2 ^ (52 - n.log2) < 2 ^ (n.log2 + 1) * 2 ^ (52 - n.log2) :=
          Nat.mul_lt_mul_of_pos_right hhigh (Nat.two_pow_pos _)
      _ = 2 ^ 53 := by rw [← Nat.pow_add]; congr 1; omega

theorem ofNat_finite {n : Nat} (hpos : 0 < n) (h : n < 2 ^ 53) :
    ofNat n = ofMagnitude false (magnitudeBits (n <<< (52 - n.log2)) (n.log2 - 52)) := by
  obtain ⟨hle, hlow, hhigh⟩ := full_length hpos h
  have hhidden := hiddenBit_eq
  obtain ⟨m, hm⟩ : ∃ m, m = n <<< (52 - n.log2) := ⟨_, rfl⟩
  rw [← hm] at hlow hhigh ⊢
  have hlog : m.log2 = 52 := log2_full hlow hhigh
  have hexponent : -1074 ≤ (n.log2 : Int) - 52 := by omega
  have hround : UnpackedFloat.round Format.binary64 .positive n 0 =
      .finite .positive m (n.log2 - 52) (by omega) := by
    have htarget : Format.binary64.targetExponent (totalExponent n 0) = (n.log2 : Int) - 52 := by
      unfold Float.Model.Format.targetExponent totalExponent
      have hbits : Format.binary64.mantissaBits = 53 := rfl
      have hmin : Format.binary64.minExponent = -1074 := rfl
      rw [hbits, hmin]
      omega
    have hshift : (0 - ((n.log2 : Int) - 52)).toNat = 52 - n.log2 := by omega
    have hdecrease : decreaseExponent n 0 ((n.log2 : Int) - 52) = (m, (n.log2 : Int) - 52) := by
      unfold decreaseExponent
      dsimp only
      rw [hshift, hm]
      congr 1
      omega
    unfold UnpackedFloat.round
    dsimp only
    rw [htarget, hdecrease]
    exact round_full .positive hlog hexponent _
  have hvalue : (UInt64.ofNat n).toNat = n := by
    rw [UInt64.toNat_ofNat']
    omega
  have hunpacked : UnpackedFloat.ofUInt64 Format.binary64 (UInt64.ofNat n) =
      .finite .positive m (n.log2 - 52) (by omega) := by
    unfold UnpackedFloat.ofUInt64 UnpackedFloat.ofNat UnpackedFloat.ofInt UnpackedFloat.normalize
    rw [hvalue, show compare (n : Int) 0 = .gt from Int.compare_eq_gt.mpr (by omega)]
    exact hround
  have hcanonical : Canonical m ((n.log2 : Int) - 52) :=
    ⟨by omega, hexponent, by omega, Or.inl (by omega)⟩
  apply eq_of_toBits_eq
  apply UInt64.toNat_inj.mp
  rw [toBits_ofMagnitude false (Nat.le_of_lt (magnitudeBits_lt hcanonical))]
  simp only [Bool.false_eq_true, if_false, Nat.zero_add]
  unfold ofNat
  rw [if_pos (by omega)]
  show (UnpackedFloat.pack Format.binary64
    (UnpackedFloat.ofUInt64 Format.binary64 (UInt64.ofNat n))).toNat = _
  rw [hunpacked]
  exact toNat_pack_full hlow hhigh hexponent (by omega) _

/-!
# Signs and words
-/

/-- A double without a sign bit is not below zero. -/
theorem not_negative {x : Float} (h : x.toBits.toNat < 2 ^ 63) : ¬ x < 0 := by
  have hzero : (0 : Float).toModel.unpack = .zero .positive := rfl
  have hsign : Sign.ofBitVec (@unpackSign Format.binary64 x.toModel.toBits.toBitVec) =
      .positive := by
    have hnone : @unpackSign Format.binary64 x.toModel.toBits.toBitVec = 0#1 := by
      apply BitVec.eq_of_toNat_eq
      rw [toNat_unpackSign]
      exact Nat.div_eq_of_lt h
    rw [hnone]
    rfl
  show ¬ decide (x.toModel.unpack.lt (0 : Float).toModel.unpack = true) = true
  rw [decide_eq_true_eq, hzero]
  unfold Float.Model.unpack UnpackedFloat.unpack
  dsimp only
  rw [hsign]
  generalize x.toModel.toBits.toBitVec = v
  by_cases hfull : @unpackExponent Format.binary64 v = -1#_
  · rw [if_pos hfull]
    by_cases hnone : @unpackMantissa Format.binary64 v = 0#_
    · rw [if_pos hnone]
      decide
    · rw [if_neg hnone]
      decide
  · rw [if_neg hfull]
    by_cases hzero : @unpackExponent Format.binary64 v = 0#_
    · rw [if_pos hzero]
      by_cases hnone : @unpackMantissa Format.binary64 v = 0#_
      · rw [dif_pos hnone]
        decide
      · rw [dif_neg hnone]
        exact Bool.false_ne_true
    · rw [if_neg hzero]
      exact Bool.false_ne_true

theorem ofNat_canonical {n : Nat} (hpos : 0 < n) (h : n < 2 ^ 53) :
    Canonical (n <<< (52 - n.log2)) ((n.log2 : Int) - 52) := by
  obtain ⟨hle, hlow, hhigh⟩ := full_length hpos h
  have hhidden := hiddenBit_eq
  exact ⟨by omega, by omega, by omega, Or.inl (by omega)⟩

theorem ofNat_not_negative {n : Nat} (h : n < 2 ^ 53) : ¬ ofNat n < 0 := by
  rcases Nat.eq_zero_or_pos n with rfl | hpos
  · decide
  · have hlt := magnitudeBits_lt (ofNat_canonical hpos h)
    have hhidden := hiddenBit_eq
    apply not_negative
    rw [ofNat_finite hpos h, toBits_ofMagnitude false (Nat.le_of_lt hlt)]
    simp only [Bool.false_eq_true, if_false]
    omega

theorem toWord_ofNat {n : Nat} (h : n < 2 ^ 53) : toWord (ofNat n) = n := by
  rcases Nat.eq_zero_or_pos n with rfl | hpos
  · decide
  · obtain ⟨hle, -, -⟩ := full_length hpos h
    have hcanonical := ofNat_canonical hpos h
    unfold toWord
    rw [ofNat_finite hpos h, anatomy_ofMagnitude false hcanonical]
    have hscaled : scaled (n <<< (52 - n.log2)) 1 (-((n.log2 : Int) - 52)) =
        (n <<< (52 - n.log2), 1 <<< (52 - n.log2)) := by
      unfold scaled
      rw [if_pos (by omega), show (-((n.log2 : Int) - 52)).toNat = 52 - n.log2 by omega]
    have hquotient : n <<< (52 - n.log2) / 1 <<< (52 - n.log2) = n := by
      rw [Nat.shiftLeft_eq, Nat.shiftLeft_eq, Nat.one_mul]
      exact Nat.mul_div_cancel _ (Nat.two_pow_pos _)
    have hfits : fitsWord (n : Int) = true := by
      have hleast : leastWord = -9223372036854775808 := by decide
      simp only [fitsWord, hleast, Bool.and_eq_true, decide_eq_true_eq]
      omega
    simp only [hscaled, hquotient, Bool.false_eq_true, if_false, hfits, if_true]

end Number
end ScriptEngine
