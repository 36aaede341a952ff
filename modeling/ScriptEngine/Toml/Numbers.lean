import ScriptEngine.Number.Reading
import ScriptEngine.Toml

/-!
# Numbers and times in settings files

Integers have 64 bits and may be written in four bases. Underscores may stand between digits, and
decimal numbers have no leading zeros. Points in time are checked against the calendar.
-/

namespace ScriptEngine
namespace Toml

def isHexDigit (c : Char) : Bool :=
  c.isDigit || ('a' ≤ c && c ≤ 'f') || ('A' ≤ c && c ≤ 'F')

/-- Whether every underscore has a digit on both sides, and the last character is a digit. -/
def underscoresOk (afterDigit : Bool) : List Char → Bool
  | [] => afterDigit
  | c :: rest => (c != '_' || afterDigit) && underscoresOk (isHexDigit c) rest

/-- Whether a decimal number has a zero in front of other digits. -/
def leadingZero : List Char → Bool
  | '0' :: c :: _ => !(c == 'b' || c == 'o' || c == 'x')
  | '+' :: '0' :: _ :: _ => true
  | '-' :: '0' :: _ :: _ => true
  | _ => false

/-- The number that digits of a base denote, underscores left out. -/
def digitsValue (base : Nat) (cs : List Char) : Nat :=
  cs.foldl (fun n c => match Text.hexValue? (UInt8.ofNat c.toNat) with
    | some d => n * base + d
    | none => n) 0

/-- The value of the characters of an integer. -/
def integerValue : List Char → Int
  | '0' :: 'b' :: cs => digitsValue 2 cs
  | '0' :: 'o' :: cs => digitsValue 8 cs
  | '0' :: 'x' :: cs => digitsValue 16 cs
  | '-' :: cs => -(digitsValue 10 cs : Int)
  | '+' :: cs => digitsValue 10 cs
  | cs => digitsValue 10 cs

/-- The integer with these characters, if they are well-formed and it has at most 64 bits. -/
def integer? (cs : List Char) : Option Literal :=
  if underscoresOk false cs && !leadingZero cs && Number.fitsWord (integerValue cs) then
    some (.integer (integerValue cs))
  else none

/-- Whether every point has a digit behind it. -/
def pointsOk : List Char → Bool
  | [] => true
  | ['.'] => false
  | '.' :: c :: rest => c.isDigit && pointsOk (c :: rest)
  | _ :: rest => pointsOk rest

/-- The pieces of a number between its point and its exponent mark, empty ones left out. -/
def pieces (cs : List Char) : List (List Char) :=
  (cs.splitBy fun a b => !isMark a && !isMark b).filter fun p => !(p.any isMark)
where
  isMark (c : Char) : Bool :=
    c == '.' || c == 'e' || c == 'E'

/-- The number with a fraction or exponent with these characters, if they are well-formed and it
is not too large. -/
def float? (cs : List Char) : Option Literal :=
  let parts := pieces cs
  let plain := cs.filter (· != '_')
  if parts.all (underscoresOk false) && !(parts.head?.any leadingZero) && pointsOk cs
      && (Number.read? (textOf plain)).isSome then
    some (.float (textOf cs))
  else none

/-!
## Points in time
-/

/-- Reads a number of exactly `n` digits. -/
def readDigits : Nat → Nat → List Char → Found Nat
  | 0, acc, cs => some (acc, cs)
  | _ + 1, _, [] => none
  | n + 1, acc, c :: rest =>
    if c.isDigit then readDigits n (acc * 10 + (c.toNat - 48)) rest else none

/-- Reads a mark and then a number of two digits that is at most `bound`. -/
def readPart (mark : Char) (bound : Nat) : List Char → Found Nat
  | c :: rest =>
    if c == mark then
      match readDigits 2 0 rest with
      | some (n, rest) => if n ≤ bound then some (n, rest) else none
      | none => none
    else none
  | [] => none

def isLeapYear (y : Nat) : Bool :=
  y % 4 == 0 && (y % 100 != 0 || y % 400 == 0)

/-- How many days a month has. -/
def daysIn (year month : Nat) : Nat :=
  if month == 2 then (if isLeapYear year then 29 else 28)
  else if month == 4 || month == 6 || month == 9 || month == 11 then 30
  else 31

/-- Reads year, month and day. -/
def readDate (cs : List Char) : Option (List Char) := do
  let (year, cs) ← readDigits 4 0 cs
  let (month, cs) ← readPart '-' 12 cs
  let (day, cs) ← readPart '-' 31 cs
  if 1 ≤ month && 1 ≤ day && day ≤ daysIn year month then some cs else none

/-- Skips a fraction of a second. -/
def skipFraction : List Char → List Char
  | '.' :: c :: rest => if c.isDigit then rest.dropWhile (·.isDigit) else '.' :: c :: rest
  | cs => cs

/-- Reads hour, minute and, if there are any, seconds. -/
def readTime (cs : List Char) : Option (List Char) := do
  let (hour, cs) ← readDigits 2 0 cs
  let (_, cs) ← readPart ':' 59 cs
  if 24 ≤ hour then none
  else
    match cs with
    | ':' :: _ => do
      let (_, cs) ← readPart ':' 59 cs
      pure (skipFraction cs)
    | cs => some cs

/-- Whether this is the offset of a time zone. -/
def isOffset : List Char → Bool
  | ['Z'] => true
  | c :: rest =>
    (c == '+' || c == '-') &&
      match readDigits 2 0 rest with
      | some (hours, rest) => hours ≤ 24 && (readPart ':' 60 rest).any fun (_, rest) => rest == []
      | none => false
  | [] => false

/-- Whether this is a date, a time, or both with or without an offset. -/
def isDatetime (cs : List Char) : Bool :=
  match readDate cs with
  | some [] => true
  | some ('T' :: rest) =>
    match readTime rest with
    | some rest => rest == [] || isOffset rest
    | none => false
  | some _ => false
  | none => readTime cs == some []

/-- The point in time with these characters. Date and time are separated by a letter of either case
or a blank. -/
def datetime? (cs : List Char) : Option Literal :=
  let trimmed := (cs.reverse.dropWhile (· == ' ')).reverse
  let normal := trimmed.map fun c =>
    if c == 't' || c == ' ' then 'T' else if c == 'z' then 'Z' else c
  if isDatetime normal then some (.datetime (textOf normal)) else none

/-!
## Reading
-/

def isDatetimeChar (c : Char) : Bool :=
  c.isDigit || c == '-' || c == ':' || c == 'T' || c == 't' || c == ' ' || c == '.' || c == 'Z'
    || c == 'z' || c == '+'

def isFloatChar (c : Char) : Bool :=
  c.isDigit || c == '_' || c == '.' || c == '-' || c == '+' || c == 'e' || c == 'E'

def isDecimalChar (c : Char) : Bool :=
  c.isDigit || c == '_'

/-- Checks the longest run of characters of a class. -/
def readRun (member : Char → Bool) (check : List Char → Option Literal) (cs : List Char) :
    Found Literal :=
  (check (cs.takeWhile member)).map fun l => (l, cs.dropWhile member)

/-- What begins with some decimal digits: the first other character behind them decides. -/
def readDecimal (cs : List Char) : Found Literal :=
  let sign := cs.takeWhile fun c => c == '+' || c == '-'
  match (cs.drop sign.length).dropWhile isDecimalChar with
  | '.' :: _ | 'e' :: _ | 'E' :: _ => readRun isFloatChar float? cs
  | rest => (integer? (cs.take (cs.length - rest.length))).map fun l => (l, rest)

/-- Whether a character is a digit of the base that a letter stands for. -/
def isBaseDigit (letter c : Char) : Bool :=
  if letter == 'x' then isHexDigit c
  else if letter == 'o' then '0' ≤ c && c ≤ '7'
  else c == '0' || c == '1'

/-- Reads an integer in another base, behind its zero and letter. A digit must come first. -/
def readBase (letter : Char) (cs : List Char) : Found Literal :=
  if cs.head?.any (isBaseDigit letter) then
    readRun (fun c => isBaseDigit letter c || c == '_')
      (fun digits => integer? ('0' :: letter :: digits)) cs
  else none

/-- Reads a number or a point in time that begins with a digit. -/
def readNumber (cs : List Char) : Found Literal :=
  match cs with
  | '0' :: 'b' :: rest => readBase 'b' rest
  | '0' :: 'o' :: rest => readBase 'o' rest
  | '0' :: 'x' :: rest => readBase 'x' rest
  | cs =>
    let digits := (cs.takeWhile (·.isDigit)).length
    match cs.drop digits with
    | '-' :: _ | ':' :: _ =>
      if cs.head? == some '0' && digits == 1 then readDecimal cs
      else readRun isDatetimeChar datetime? cs
    | _ => readDecimal cs

/-- Reads a number behind its sign. -/
def readSigned (sign : Char) (cs : List Char) : Found Literal :=
  match cs with
  | 'i' :: 'n' :: 'f' :: rest => some (.float (textOf [sign, 'i', 'n', 'f']), rest)
  | 'n' :: 'a' :: 'n' :: rest => some (.float (textOf [sign, 'n', 'a', 'n']), rest)
  | '0' :: 'b' :: _ | '0' :: 'o' :: _ | '0' :: 'x' :: _ => none
  | c :: _ => if c.isDigit then readDecimal (sign :: cs) else none
  | [] => none

end Toml
end ScriptEngine
