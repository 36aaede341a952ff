import ScriptEngine.Text
import ScriptEngine.Number.Shortest

/-!
# Numbers as text

A number is written with its shortest digits, positionally while the exponent of its first digit
lies between -4 and 5 and with an exponent of at least two digits otherwise. The texts of the
special values differ between what programs print and what instructions carry.
-/

namespace ScriptEngine
namespace Number

/-- How the values without digits are written. -/
structure Specials where
  infinite : String
  negativeInfinite : String
  undefined : String

/-- The spelling that programs print. -/
def printed : Specials :=
  ⟨"inf", "-inf", "nan"⟩

/-- The spelling of instruction operands. -/
def coded : Specials :=
  ⟨"+Inf", "-Inf", "NaN"⟩

/-- Least and greatest exponent of the first digit in positional form. -/
def positionalFrom : Int := -4

def positionalTo : Int := 5

/-- The decimal digits of a positive number, most significant first; one zero for zero. -/
def digitList (n : Nat) : List Char :=
  Nat.toDigits 10 n

/-- An exponent with its sign and at least two digits. -/
def exponentText (e : Int) : String :=
  let digits := String.ofList (digitList e.natAbs)
  (if e < 0 then "e-" else "e+") ++ (if e.natAbs < 10 then "0" ++ digits else digits)

/-- The positional form of digits whose first one has exponent `e`. -/
def positional (digits : List Char) (e : Int) : String :=
  if e < 0 then
    "0." ++ String.ofList (List.replicate (-e - 1).toNat '0' ++ digits)
  else
    let whole := e.toNat + 1
    let integer := digits.take whole ++ List.replicate (whole - digits.length) '0'
    let fraction := digits.drop whole
    String.ofList (if fraction.isEmpty then integer else integer ++ '.' :: fraction)

/-- The form with an exponent. -/
def scientific (digits : List Char) (e : Int) : String :=
  match digits with
  | [] => ""
  | first :: rest =>
    String.ofList (if rest.isEmpty then [first] else first :: '.' :: rest) ++ exponentText e

/-- A decimal without its sign. -/
def Decimal.text (d : Decimal) : String :=
  let digits := digitList d.digits
  let e := if d.digits == 0 then 0 else d.exponent + digits.length - 1
  if positionalFrom ≤ e && e ≤ positionalTo then positional digits e else scientific digits e

/-- A number with the given spelling of special values. -/
def write (specials : Specials) (x : Float) : Text :=
  match anatomy x with
  | .undefined => specials.undefined
  | .infinite negative => if negative then specials.negativeInfinite else specials.infinite
  | .finite negative m e =>
    let body := (shortest m e).text
    Text.ofString (if negative then "-" ++ body else body)

/-- The text of a number as programs print it. -/
def display (x : Float) : Text :=
  write printed x

/-- The text of a number as an instruction carries it. -/
def operand (x : Float) : Text :=
  write coded x

end Number
end ScriptEngine
