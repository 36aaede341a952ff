import ScriptEngine.Text

/-!
# Characters of a byte string

A text is read as UTF-8 from left to right. Where the bytes are not a well-formed encoding of a
scalar value, exactly one byte is taken and stands for the replacement character, so that every
text falls into pieces whose concatenation is the text itself.
-/

namespace ScriptEngine
namespace Text

/-- The character that stands for a byte which is not part of a well-formed encoding. -/
def replacement : Char :=
  Char.ofNat 0xFFFD

/-- One decoded piece: the character it stands for, how many bytes it has beyond the first, and
whether the bytes were well formed. -/
structure Piece where
  char : Char
  extra : Nat
  valid : Bool
  deriving Inhabited, DecidableEq

namespace Piece

/-- Number of bytes. -/
def width (p : Piece) : Nat :=
  p.extra + 1

/-- A single byte that could not be decoded. -/
def broken : Piece :=
  ⟨replacement, 0, false⟩

end Piece

/-- Whether a byte continues a multi-byte encoding. -/
def isContinuation (b : UInt8) : Bool :=
  0x80 ≤ b && b ≤ 0xBF

/-- The payload of a continuation byte. -/
def payload (b : UInt8) : Nat :=
  b.toNat % 64

/-- The second byte after a given first byte of a three or four byte encoding is restricted
further, so that overlong forms, surrogates and values past the last scalar are refused. -/
def secondAllowed (b0 b1 : UInt8) : Bool :=
  if b0 == 0xE0 then 0xA0 ≤ b1 && b1 ≤ 0xBF
  else if b0 == 0xED then 0x80 ≤ b1 && b1 ≤ 0x9F
  else if b0 == 0xF0 then 0x90 ≤ b1 && b1 ≤ 0xBF
  else if b0 == 0xF4 then 0x80 ≤ b1 && b1 ≤ 0x8F
  else isContinuation b1

/-- The piece that starts at position `i`. -/
def pieceAt (t : Text) (i : Nat) : Piece :=
  let b0 := t.byteAt i
  if b0 < 0x80 then ⟨Char.ofNat b0.toNat, 0, true⟩
  else if b0 < 0xC2 || 0xF4 < b0 then Piece.broken
  else if b0 < 0xE0 then
    let b1 := t.byteAt (i + 1)
    if isContinuation b1 then
      ⟨Char.ofNat ((b0.toNat % 32) * 64 + payload b1), 1, true⟩
    else Piece.broken
  else if b0 < 0xF0 then
    let b1 := t.byteAt (i + 1)
    let b2 := t.byteAt (i + 2)
    if secondAllowed b0 b1 && isContinuation b2 then
      ⟨Char.ofNat ((b0.toNat % 16) * 4096 + payload b1 * 64 + payload b2), 2, true⟩
    else Piece.broken
  else
    let b1 := t.byteAt (i + 1)
    let b2 := t.byteAt (i + 2)
    let b3 := t.byteAt (i + 3)
    if secondAllowed b0 b1 && isContinuation b2 && isContinuation b3 then
      ⟨Char.ofNat ((b0.toNat % 8) * 262144 + payload b1 * 4096 + payload b2 * 64 + payload b3),
        3, true⟩
    else Piece.broken

/-- Folds over the pieces of a text from position `i` on, with the position of each. -/
def foldPieces {α : Type} (t : Text) (f : α → Nat → Piece → α) (acc : α) (i : Nat) : α :=
  if i < t.size then
    let p := t.pieceAt i
    foldPieces t f (f acc i p) (i + p.extra + 1)
  else acc
termination_by t.size - i

/-- Number of characters, a broken byte counting as one. -/
def length (t : Text) : Nat :=
  t.foldPieces (fun n _ _ => n + 1) 0 0

/-- The characters in order, a broken byte giving the replacement character. -/
def chars (t : Text) : List Char :=
  (t.foldPieces (fun acc _ p => acc.push p.char) #[] 0).toList

/-- The UTF-8 encoding of one character. -/
def ofChar (c : Char) : Text :=
  ofString (String.singleton c)

/-- The bytes of each character in order; a broken byte stays as it is. -/
def explode (t : Text) : List Text :=
  (t.foldPieces (fun acc i p => acc.push (t.slice i (i + p.width))) #[] 0).toList

/-- Applies a function to every character; broken bytes are read as the replacement character. -/
def mapChars (t : Text) (f : Char → Char) : Text :=
  t.foldPieces (fun acc _ p => acc ++ ofChar (f p.char)) empty 0

/-- Blanks are added on the right up to `n` characters. -/
def padRight (t : Text) (n : Nat) : Text :=
  t ++ blanks (n - t.length)

end Text
end ScriptEngine
