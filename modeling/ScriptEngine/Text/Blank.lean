import ScriptEngine.Text.Utf8

/-!
# White space

The characters that separate words: those with the Unicode property `White_Space`.
-/

namespace ScriptEngine
namespace Text

/-- Whether a character is white space. -/
def isBlank (c : Char) : Bool :=
  let n := c.toNat
  (0x09 ≤ n && n ≤ 0x0D) || n == 0x20 || n == 0x85 || n == 0xA0 || n == 0x1680
    || (0x2000 ≤ n && n ≤ 0x200A) || n == 0x2028 || n == 0x2029 || n == 0x202F || n == 0x205F
    || n == 0x3000

/-- Where the first character that is not white space begins and where the last one ends; `none`
if there is no such character. -/
def core? (t : Text) : Option (Nat × Nat) :=
  t.foldPieces
    (fun found i p =>
      if isBlank p.char then found
      else match found with
        | none => some (i, i + p.width)
        | some (start, _) => some (start, i + p.width))
    none 0

/-- The text without white space at its ends. -/
def trim (t : Text) : Text :=
  match t.core? with
  | none => empty
  | some (i, j) => t.slice i j

/-- The text without the given bytes at its end. -/
def trimEnd (t : Text) (drop : UInt8 → Bool) : Text :=
  ofList (t.toList.reverse.dropWhile drop).reverse

end Text
end ScriptEngine
