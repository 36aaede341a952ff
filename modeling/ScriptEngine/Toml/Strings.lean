import ScriptEngine.Toml

/-!
# Strings in settings files

Strings stand between quotes, single for literal ones and double for ones with escapes. Three
quotes on each side let a string span lines; one or two quotes may then stand anywhere inside it,
also right before the closing ones.
-/

namespace ScriptEngine
namespace Toml

/-- The value of a hexadecimal digit. -/
def hexValue? (c : Char) : Option Nat :=
  if c.toNat < 128 then Text.hexValue? (UInt8.ofNat c.toNat) else none

/-- Reads `n` hexadecimal digits. -/
def readHex : Nat → Nat → List Char → Found Nat
  | 0, acc, cs => some (acc, cs)
  | _ + 1, _, [] => none
  | n + 1, acc, c :: rest =>
    match hexValue? c with
    | some d => readHex n (acc * 16 + d) rest
    | none => none

/-- The character with a code point given by `n` hexadecimal digits. -/
def readCodePoint (n : Nat) (cs : List Char) : Found Char :=
  match readHex n 0 cs with
  | none => none
  | some (v, rest) => if v.isValidChar then some (Char.ofNat v, rest) else none

/-- Reads what follows a backslash. -/
def readEscape : List Char → Found Char
  | 'b' :: rest => some ('\x08', rest)
  | 't' :: rest => some ('\t', rest)
  | 'n' :: rest => some ('\n', rest)
  | 'f' :: rest => some ('\x0c', rest)
  | 'r' :: rest => some ('\r', rest)
  | 'e' :: rest => some ('\x1b', rest)
  | '"' :: rest => some ('"', rest)
  | '\\' :: rest => some ('\\', rest)
  | 'x' :: rest => readCodePoint 2 rest
  | 'u' :: rest => readCodePoint 4 rest
  | 'U' :: rest => readCodePoint 8 rest
  | _ => none

/-- Reads a string on one line up to its closing quote, looking at most `fuel` times. -/
def readLine (quote : Char) : Nat → List Char → List Char → Found Text
  | 0, _, _ => none
  | _, _, [] => none
  | fuel + 1, acc, c :: rest =>
    if c == quote then some (textOf acc.reverse, rest)
    else if isNewline c then none
    else if c == '\\' && quote == '"' then
      match readEscape rest with
      | some (e, rest) => readLine quote fuel (e :: acc) rest
      | none => none
    else readLine quote fuel (c :: acc) rest

/-- White space that a backslash at the end of a line swallows. -/
def isGap (c : Char) : Bool :=
  isSpace c || isNewline c

/-- How many quotes may stand right before the three closing ones: one more behind an escaped
backslash. -/
def spareQuotes (backslash : Bool) : Nat :=
  if backslash then 3 else 2

/-- Reads a string over lines up to its closing quotes, looking at most `fuel` times; `backslash` if
the last thing read is an escaped backslash. -/
def readLines (quote : Char) : Nat → Bool → List Char → List Char → Found Text
  | 0, _, _, _ => none
  | _, _, _, [] => none
  | fuel + 1, backslash, acc, c :: rest =>
    if c == quote then
      let more := (rest.takeWhile (· == quote)).length
      if more < 2 then readLines quote fuel false (c :: acc) rest
      else if more - 2 ≤ spareQuotes backslash then
        some (textOf (List.replicate (more - 2) quote ++ acc).reverse, rest.drop more)
      else none
    else if c == '\\' && quote == '"' then
      if (rest.takeWhile isGap).contains '\n' then
        readLines quote fuel false acc (rest.dropWhile isGap)
      else
        match readEscape rest with
        | some (e, after) => readLines quote fuel (rest.head? == some '\\') (e :: acc) after
        | none => none
    else readLines quote fuel false (c :: acc) rest

/-- An end of a line right behind opening quotes does not count. -/
def skipFirstNewline : List Char → List Char
  | '\n' :: rest => rest
  | '\r' :: '\n' :: rest => rest
  | cs => cs

/-- Reads a string on one line behind its opening quote. -/
def readPlain (quote : Char) (cs : List Char) : Found Text :=
  readLine quote (cs.length + 1) [] cs

/-- Reads a string of either form behind its first quote. -/
def readString (quote : Char) (cs : List Char) : Found Text :=
  match cs with
  | a :: b :: rest =>
    if a == quote && b == quote then
      let body := skipFirstNewline rest
      readLines quote (body.length + 1) false [] body
    else readPlain quote cs
  | cs => readPlain quote cs

end Toml
end ScriptEngine
