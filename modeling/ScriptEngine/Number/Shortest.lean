import ScriptEngine.Number.Binary

/-!
# Shortest decimals

A finite double is written with the fewest decimal digits that read back as the same double. Of
several decimals with that many digits the nearest one is taken, and of two equally near ones the
one with the even last digit.
-/

namespace ScriptEngine
namespace Number

/-- The decimal `digits · 10^exponent`. -/
structure Decimal where
  digits : Nat
  exponent : Int
  deriving DecidableEq, Inhabited

/-- The power `10^p` as a fraction of naturals. -/
def powerOfTen (p : Int) : Nat × Nat :=
  if 0 ≤ p then (Nat.pow 10 p.toNat, 1) else (1, Nat.pow 10 (-p).toNat)

/-- The reals that round to one double, in quarters of its last place: from `low` to `high` around
`mid`, all over the common denominator `den`. The ends belong to it if `closed`. -/
structure Neighbourhood where
  low : Nat
  mid : Nat
  high : Nat
  den : Nat
  closed : Bool

/-- The neighbourhood of `significand · 2^exponent`. Below a power of two the doubles lie twice as
dense. -/
def neighbourhood (significand : Nat) (exponent : Int) : Neighbourhood :=
  let gap := if significand == hiddenBit && -1074 < exponent then 1 else 2
  let (unit, den) := scaled 1 1 (2 - exponent)
  { low := (4 * significand - gap) * unit
    mid := 4 * significand * unit
    high := (4 * significand + 2) * unit
    den := den
    closed := significand % 2 == 0 }

namespace Neighbourhood

/-- Whether `n · num / den'` lies in the neighbourhood, for a grid unit `num / den'`. -/
def holds (h : Neighbourhood) (num den' n : Nat) : Bool :=
  let point := n * num * h.den
  let low := h.low * den'
  let high := h.high * den'
  if h.closed then low ≤ point && point ≤ high else low < point && point < high

/-- The multiple of `10^p` inside the neighbourhood that lies nearest to its middle. -/
def onGrid? (h : Neighbourhood) (p : Int) : Option Nat :=
  let (num, den') := powerOfTen p
  let below := h.mid * den' / (num * h.den)
  let above := below + 1
  match h.holds num den' below, h.holds num den' above with
  | false, false => none
  | true, false => some below
  | false, true => some above
  | true, true =>
    let twice := 2 * h.mid * den'
    let half := (2 * below + 1) * num * h.den
    if twice < half then some below
    else if half < twice then some above
    else if below % 2 == 0 then some below
    else some above

/-- Tries ever finer grids, `fuel` of them from `10^p` down. -/
def search (h : Neighbourhood) (p : Int) : Nat → Decimal
  | 0 => ⟨0, 0⟩
  | fuel + 1 =>
    match h.onGrid? p with
    | some n => ⟨n, p⟩
    | none => h.search (p - 1) fuel

end Neighbourhood

/-- A power of ten that is above `significand · 2^exponent` and at most a hundred times as large,
as its exponent. -/
def decimalBound (significand : Nat) (exponent : Int) : Int :=
  ((significand.log2 + 1 + exponent) * 30103) / 100000 + 1

/-- The shortest decimal of `significand · 2^exponent`; seventeen digits always suffice. -/
def shortest (significand : Nat) (exponent : Int) : Decimal :=
  if significand == 0 then ⟨0, 0⟩
  else (neighbourhood significand exponent).search (decimalBound significand exponent) 22

end Number
end ScriptEngine
