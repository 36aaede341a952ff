import ScriptEngine.Text
import ScriptEngine.Number.Binary

/-!
# Reading numbers

A number is written in decimal with an optional fraction and exponent, or in hexadecimal with a
binary exponent that must be present. Underscores may stand between digits. The value is the
double nearest to the written number; a number too large for every double is refused.
-/

namespace ScriptEngine
namespace Number

/-- The lower-case form of an ASCII letter. -/
def lowerByte (b : UInt8) : UInt8 :=
  if 65 ≤ b && b ≤ 90 then b + 32 else b

def isDigit (b : UInt8) : Bool :=
  48 ≤ b && b ≤ 57

/-- The value of a digit of the base. -/
def digitValue? (hexadecimal : Bool) (b : UInt8) : Option Nat :=
  if isDigit b then some (b.toNat - 48)
  else if hexadecimal && 97 ≤ lowerByte b && lowerByte b ≤ 102 then
    some ((lowerByte b).toNat - 87)
  else none

/-- The digits read so far: their value as one integer, how many stand behind the point, and what
has been seen. -/
structure Mantissa where
  value : Nat
  fraction : Nat
  point : Bool
  digits : Bool

/-- Reads digits, at most one point and any underscores, and gives back what follows. -/
def scanMantissa (hexadecimal : Bool) (m : Mantissa) : List UInt8 → Mantissa × List UInt8
  | [] => (m, [])
  | b :: rest =>
    if b == 95 then scanMantissa hexadecimal m rest
    else if b == 46 then
      if m.point then (m, b :: rest) else scanMantissa hexadecimal { m with point := true } rest
    else
      match digitValue? hexadecimal b with
      | none => (m, b :: rest)
      | some d =>
        let base := if hexadecimal then 16 else 10
        scanMantissa hexadecimal
          { m with
            value := m.value * base + d
            fraction := if m.point then m.fraction + 1 else m.fraction
            digits := true }
          rest

/-- Reads the digits of an exponent, and gives back what follows. An exponent that has reached ten
thousand does not grow further: the number is out of reach by then. -/
def scanExponent (e : Nat) : List UInt8 → Nat × List UInt8
  | [] => (e, [])
  | b :: rest =>
    if b == 95 then scanExponent e rest
    else if isDigit b then
      scanExponent (if e < 10000 then e * 10 + (b.toNat - 48) else e) rest
    else (e, b :: rest)

/-- What an underscore may follow or precede. -/
inductive Seen where
  | start
  | digit
  | underscore
  | other
  deriving DecidableEq

/-- Whether every underscore stands between two digits. -/
def underscoresBetween (hexadecimal : Bool) (seen : Seen) : List UInt8 → Bool
  | [] => seen != .underscore
  | b :: rest =>
    if (digitValue? hexadecimal b).isSome then underscoresBetween hexadecimal .digit rest
    else if b == 95 then
      seen == .digit && underscoresBetween hexadecimal .underscore rest
    else seen != .underscore && underscoresBetween hexadecimal .other rest

/-- Whether the underscores of an unsigned number are well placed; a base mark counts as a
digit. -/
def underscoresOk : List UInt8 → Bool
  | 48 :: b :: rest =>
    if lowerByte b == 120 then underscoresBetween true .digit rest
    else if lowerByte b == 98 || lowerByte b == 111 then underscoresBetween false .digit rest
    else underscoresBetween false .start (48 :: b :: rest)
  | bytes => underscoresBetween false .start bytes

/-- The sign of a number and what follows it. -/
def splitSign : List UInt8 → Bool × List UInt8
  | 45 :: rest => (true, rest)
  | 43 :: rest => (false, rest)
  | bytes => (false, bytes)

/-- Reads the exponent behind its mark letter. `none` if it is malformed; no exponent gives zero
where one is not required. -/
def readExponent (mark : UInt8) (required : Bool) : List UInt8 → Option (Int × List UInt8)
  | [] => if required then none else some (0, [])
  | b :: rest =>
    if lowerByte b == mark then
      let (negative, digits) := splitSign rest
      match digits with
      | d :: _ =>
        if isDigit d then
          let (e, rest) := scanExponent 0 digits
          some (if negative then -(e : Int) else e, rest)
        else none
      | [] => none
    else if required then none
    else some (0, b :: rest)

/-- The double nearest to `m · 10^e`. -/
def ofDecimal (negative : Bool) (m : Nat) (e : Int) : Float :=
  let reach : Int := (m.log2 : Int) * 30103 / 100000 + e
  if m == 0 || reach < -400 then ofMagnitude negative 0
  else if 400 < reach then infinity negative
  else if 0 ≤ e then ofRatio negative (m * Nat.pow 10 e.toNat) 1
  else ofRatio negative m (Nat.pow 10 (-e).toNat)

/-- The double nearest to `m · 2^e`. -/
def ofBinary (negative : Bool) (m : Nat) (e : Int) : Float :=
  let reach : Int := (m.log2 : Int) + e
  if m == 0 || reach < -1200 then ofMagnitude negative 0
  else if 1200 < reach then infinity negative
  else
    let (num, den) := scaled m 1 (-e)
    ofRatio negative num den

/-- Whether a number is neither infinite nor undefined. -/
def isFinite (x : Float) : Bool :=
  match anatomy x with
  | .finite .. => true
  | _ => false

/-- The digits of a number behind its sign, with the base already decided. A number too large for
every double counts as infinite. -/
def readDigits (negative hexadecimal : Bool) (bytes : List UInt8) : Option Float :=
  let (m, rest) := scanMantissa hexadecimal ⟨0, 0, false, false⟩ bytes
  if !m.digits then none
  else
    match readExponent (if hexadecimal then 112 else 101) hexadecimal rest with
    | some (e, []) =>
      some (if hexadecimal then ofBinary negative m.value (e - 4 * m.fraction)
        else ofDecimal negative m.value (e - m.fraction))
    | _ => none

/-- A number behind its sign. -/
def readUnsigned (negative : Bool) (bytes : List UInt8) : Option Float :=
  if bytes.contains 95 && !underscoresOk bytes then none
  else
    match bytes with
    | 48 :: b :: c :: rest =>
      if lowerByte b == 120 then readDigits negative true (c :: rest)
      else readDigits negative false bytes
    | _ => readDigits negative false bytes

/-- The special values in any case: `inf` and `infinity` with an optional sign, and `nan`. -/
def readSpecial? (t : Text) : Option Float :=
  let bytes := t.toList.map lowerByte
  let (negative, magnitude) := splitSign bytes
  if bytes == (Text.ofString "nan").toList then some undefined
  else if magnitude == (Text.ofString "inf").toList
      || magnitude == (Text.ofString "infinity").toList then
    some (infinity negative)
  else none

/-- The double nearest to the finite number that a text denotes, if it denotes one. -/
def nearest? (t : Text) : Option Float :=
  let (negative, bytes) := splitSign t.toList
  readUnsigned negative bytes

/-- The number that a text denotes, if it denotes one that is not too large. -/
def read? (t : Text) : Option Float :=
  match readSpecial? t with
  | some x => some x
  | none => (nearest? t).filter isFinite

/-- The number that a text denotes; infinite if it is too large, zero if it denotes none. -/
def readOrZero (t : Text) : Float :=
  match readSpecial? t with
  | some x => x
  | none => (nearest? t).getD 0

/-!
## Integers and truth values
-/

/-- The value of a non-empty list of decimal digits. -/
def readNat? (bytes : List UInt8) : Option Nat :=
  if bytes.isEmpty || !bytes.all isDigit then none
  else some (bytes.foldl (fun n b => n * 10 + (b.toNat - 48)) 0)

/-- A signed decimal integer that fits a 64-bit word. -/
def readWord? (t : Text) : Option Int :=
  let (negative, digits) := splitSign t.toList
  match readNat? digits with
  | none => none
  | some n =>
    let i : Int := if negative then -(n : Int) else n
    if fitsWord i then some i else none

/-- The truth value that a text denotes. -/
def readBool? (t : Text) : Option Bool :=
  if ["1", "t", "T", "TRUE", "true", "True"].any (fun s => t == Text.ofString s) then some true
  else if ["0", "f", "F", "FALSE", "false", "False"].any (fun s => t == Text.ofString s) then
    some false
  else none

end Number
end ScriptEngine
