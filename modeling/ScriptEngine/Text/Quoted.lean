import ScriptEngine.Text.Utf8
import ScriptEngine.Text.Printable

/-!
# Quoted texts

A quoted text stands between double quotes. Printable characters are shown as they are, the quote
and the backslash behind a backslash, the usual control characters by their letters, every other
character by its code point and every broken byte by its value, so that no two texts have the same
quoted form.
-/

namespace ScriptEngine
namespace Text

/-- The letter that stands for a control character behind a backslash. -/
def controlLetter? : Nat → Option String
  | 0x07 => some "a"
  | 0x08 => some "b"
  | 0x09 => some "t"
  | 0x0A => some "n"
  | 0x0B => some "v"
  | 0x0C => some "f"
  | 0x0D => some "r"
  | _ => none

/-- The form of a well-formed character inside quotes. -/
def escapeChar (c : Char) : Text :=
  let n := c.toNat
  if c == '"' || c == '\\' then ofString "\\" ++ ofChar c
  else if isPrintable c then ofChar c
  else match controlLetter? n with
    | some letter => ofString "\\" ++ ofString letter
    | none =>
      if n < 0x20 || n == 0x7F then ofString "\\x" ++ hex 2 n
      else if n < 0x10000 then ofString "\\u" ++ hex 4 n
      else ofString "\\U" ++ hex 8 n

/-- The form of one piece inside quotes; `b` is its first byte. -/
def escapePiece (b : UInt8) (p : Piece) : Text :=
  if p.valid then escapeChar p.char else ofString "\\x" ++ hex 2 b.toNat

/-- The quoted form of a text. -/
def quoted (t : Text) : Text :=
  t.foldPieces (fun acc i p => acc ++ escapePiece (t.byteAt i) p) (ofString "\"") 0
    ++ ofString "\""

end Text
end ScriptEngine
