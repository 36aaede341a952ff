/-!
# Anatomy of a number

A number of the language is a double. This module reads one as sign, significand and exponent,
rounds an exact ratio to the nearest double, and defines the integer-valued operations (rounding
down, up and toward zero, remainder, conversion to a machine word) by exact arithmetic on these
parts.
-/

namespace ScriptEngine
namespace Number

/-- What a double stands for: `(-1)^negative · significand · 2^exponent`, an infinity, or no
number at all. -/
inductive Anatomy where
  | finite (negative : Bool) (significand : Nat) (exponent : Int)
  | infinite (negative : Bool)
  | undefined
  deriving DecidableEq

/-- The weight of the bit above the fraction of a significand, `2^52`. -/
def hiddenBit : Nat :=
  0x10000000000000

/-- The sign bit. -/
def isNegative (x : Float) : Bool :=
  x.toBits >>> 63 == 1

/-- Reads the three fields of the binary format. -/
def anatomy (x : Float) : Anatomy :=
  let bits := x.toBits
  let negative := isNegative x
  let field := ((bits >>> 52) &&& 0x7FF).toNat
  let fraction := (bits &&& 0xFFFFFFFFFFFFF).toNat
  if field == 0x7FF then
    if fraction == 0 then .infinite negative else .undefined
  else if field == 0 then .finite negative fraction (-1074)
  else .finite negative (fraction + hiddenBit) ((field : Int) - 1075)

def isUndefined (x : Float) : Bool :=
  !(x == x)

/-- The double with the given sign bit and magnitude bits. -/
def ofMagnitude (negative : Bool) (bits : Nat) : Float :=
  Float.ofBits (UInt64.ofNat (if negative then bits + 0x8000000000000000 else bits))

def infinity (negative : Bool) : Float :=
  ofMagnitude negative (0x7FF * hiddenBit)

/-- The double that stands for no number. -/
def undefined : Float :=
  Float.ofBits 0x7FF8000000000001

/-- The quotient `num / den` rounded to an integer, a half going to the even neighbour. -/
def roundHalfEven (num den : Nat) : Nat :=
  let q := num / den
  let r := num % den
  if den < 2 * r || (2 * r == den && q % 2 == 1) then q + 1 else q

/-- The ratio `num · 2^(-e) / den` as a fraction of naturals. -/
def scaled (num den : Nat) (e : Int) : Nat × Nat :=
  if 0 ≤ e then (num, den <<< e.toNat) else (num <<< (-e).toNat, den)

/-- The double nearest to `num / den`, a half going to the even significand; infinite from the
midpoint above the largest double on. -/
def ofRatio (negative : Bool) (num den : Nat) : Float :=
  if num == 0 then ofMagnitude negative 0
  else
    let guess : Int := max ((num.log2 : Int) - den.log2 - 53) (-1074)
    let (n, d) := scaled num den guess
    let e := if 2 * hiddenBit ≤ n / d then guess + 1 else guess
    let (n, d) := scaled num den e
    let q := roundHalfEven n d
    let bits := if q < hiddenBit then q else (e + 1075).toNat * hiddenBit + (q - hiddenBit)
    if 0x7FF * hiddenBit ≤ bits then infinity negative else ofMagnitude negative bits

/-- The double nearest to a natural number. -/
def ofNat (n : Nat) : Float :=
  if n < 2 * hiddenBit then (UInt64.ofNat n).toFloat else ofRatio false n 1

/-- The double nearest to an integer. -/
def ofInt (i : Int) : Float :=
  ofRatio (i < 0) i.natAbs 1

/-!
## Integer parts
-/

/-- How an integer part treats a fraction that is left over. -/
inductive Direction where
  | down
  | up
  | towardZero
  deriving DecidableEq

/-- Whether the magnitude grows when a fraction is dropped in the given direction. -/
def Direction.away (d : Direction) (negative : Bool) : Bool :=
  match d with
  | .down => negative
  | .up => !negative
  | .towardZero => false

/-- The integer next to a double in the given direction; the sign of a zero is kept. -/
def integerPart (d : Direction) (x : Float) : Float :=
  match anatomy x with
  | .finite negative m e =>
    if 0 ≤ e then x
    else
      let n := m >>> (-e).toNat
      ofRatio negative (if n <<< (-e).toNat != m && d.away negative then n + 1 else n) 1
  | _ => x

/-- The largest integer that is not above. -/
def floor (x : Float) : Float :=
  integerPart .down x

/-- The smallest integer that is not below. -/
def ceil (x : Float) : Float :=
  integerPart .up x

/-- The integer part, without its fraction. -/
def trunc (x : Float) : Float :=
  integerPart .towardZero x

/-- The double without its sign. -/
def abs (x : Float) : Float :=
  Float.ofBits (x.toBits &&& 0x7FFFFFFFFFFFFFFF)

/-- The remainder of a division toward zero: it has the sign of the dividend and a magnitude below
that of the divisor. -/
def remainder (x y : Float) : Float :=
  match anatomy x, anatomy y with
  | .finite negative m e, .finite _ n f =>
    if n == 0 then undefined
    else
      let low := min e f
      let (a, _) := scaled m 1 (low - e)
      let (b, _) := scaled n 1 (low - f)
      let (num, den) := scaled (a % b) 1 (-low)
      ofRatio negative num den
  | .finite .., .infinite _ => x
  | _, _ => undefined

/-!
## Machine words
-/

/-- The least signed 64-bit word, `-2^63`. -/
def leastWord : Int :=
  -0x8000000000000000

/-- Whether an integer fits a signed 64-bit word. -/
def fitsWord (i : Int) : Bool :=
  leastWord ≤ i && i < -leastWord

/-- An integer taken modulo `2^64` into the range of signed 64-bit words. -/
def wrapWord (i : Int) : Int :=
  (Int64.ofInt i).toInt

/-- The integer part of a double as a signed 64-bit word; the least word if it does not fit. -/
def toWord (x : Float) : Int :=
  match anatomy x with
  | .finite negative m e =>
    let (n, d) := scaled m 1 (-e)
    let magnitude := n / d
    let i : Int := if negative then -(magnitude : Int) else magnitude
    if fitsWord i then i else leastWord
  | _ => leastWord

end Number
end ScriptEngine
