import ScriptEngine.Text

/-!
# Digests

The SHA-256 digest of a text: 32 bytes that identify it.
-/

namespace ScriptEngine
namespace Digest

/-- The eight words that are carried from block to block. -/
structure Registers where
  a : UInt32
  b : UInt32
  c : UInt32
  d : UInt32
  e : UInt32
  f : UInt32
  g : UInt32
  h : UInt32
  deriving DecidableEq, Inhabited

namespace Registers

/-- The words before the first block. -/
def start : Registers :=
  ⟨0x6a09e667, 0xbb67ae85, 0x3c6ef372, 0xa54ff53a, 0x510e527f, 0x9b05688c, 0x1f83d9ab,
    0x5be0cd19⟩

/-- Adds word by word. -/
def add (x y : Registers) : Registers :=
  ⟨x.a + y.a, x.b + y.b, x.c + y.c, x.d + y.d, x.e + y.e, x.f + y.f, x.g + y.g, x.h + y.h⟩

def toList (r : Registers) : List UInt32 :=
  [r.a, r.b, r.c, r.d, r.e, r.f, r.g, r.h]

end Registers

/-- One constant for every round. -/
def roundConstants : List UInt32 :=
  [ 0x428a2f98, 0x71374491, 0xb5c0fbcf, 0xe9b5dba5, 0x3956c25b, 0x59f111f1,
    0x923f82a4, 0xab1c5ed5, 0xd807aa98, 0x12835b01, 0x243185be, 0x550c7dc3,
    0x72be5d74, 0x80deb1fe, 0x9bdc06a7, 0xc19bf174, 0xe49b69c1, 0xefbe4786,
    0x0fc19dc6, 0x240ca1cc, 0x2de92c6f, 0x4a7484aa, 0x5cb0a9dc, 0x76f988da,
    0x983e5152, 0xa831c66d, 0xb00327c8, 0xbf597fc7, 0xc6e00bf3, 0xd5a79147,
    0x06ca6351, 0x14292967, 0x27b70a85, 0x2e1b2138, 0x4d2c6dfc, 0x53380d13,
    0x650a7354, 0x766a0abb, 0x81c2c92e, 0x92722c85, 0xa2bfe8a1, 0xa81a664b,
    0xc24b8b70, 0xc76c51a3, 0xd192e819, 0xd6990624, 0xf40e3585, 0x106aa070,
    0x19a4c116, 0x1e376c08, 0x2748774c, 0x34b0bcb5, 0x391c0cb3, 0x4ed8aa4a,
    0x5b9cca4f, 0x682e6ff3, 0x748f82ee, 0x78a5636f, 0x84c87814, 0x8cc70208,
    0x90befffa, 0xa4506ceb, 0xbef9a3f7, 0xc67178f2 ]

/-- Rotates a word to the right by `n` places, where `n` is between 1 and 31. -/
def rotate (w n : UInt32) : UInt32 :=
  (w >>> n) ||| (w <<< (32 - n))

/-- One round. -/
def round (r : Registers) (constant word : UInt32) : Registers :=
  let s1 := rotate r.e 6 ^^^ rotate r.e 11 ^^^ rotate r.e 25
  let choice := (r.e &&& r.f) ^^^ ((~~~ r.e) &&& r.g)
  let t1 := r.h + s1 + choice + constant + word
  let s0 := rotate r.a 2 ^^^ rotate r.a 13 ^^^ rotate r.a 22
  let majority := (r.a &&& r.b) ^^^ (r.a &&& r.c) ^^^ (r.b &&& r.c)
  ⟨t1 + s0 + majority, r.a, r.b, r.c, r.d + t1, r.e, r.f, r.g⟩

/-- The word that follows the words so far, of which there are at least sixteen. -/
def nextWord (words : Array UInt32) : UInt32 :=
  let back (k : Nat) : UInt32 := words[words.size - k]?.getD 0
  let w15 := back 15
  let w2 := back 2
  let s0 := rotate w15 7 ^^^ rotate w15 18 ^^^ (w15 >>> 3)
  let s1 := rotate w2 17 ^^^ rotate w2 19 ^^^ (w2 >>> 10)
  back 16 + s0 + back 7 + s1

/-- Four bytes as a word, the first byte being the highest. -/
def wordAt (t : Text) (i : Nat) : UInt32 :=
  let byte (k : Nat) : UInt32 := (t.byteAt (i + k)).toUInt32
  (byte 0 <<< 24) ||| (byte 1 <<< 16) ||| (byte 2 <<< 8) ||| byte 3

/-- The 64 words of the block at a position. -/
def schedule (t : Text) (i : Nat) : Array UInt32 :=
  let first := (Array.range 16).map fun k => wordAt t (i + 4 * k)
  Nat.fold 48 (fun _ _ words => words.push (nextWord words)) first

/-- The registers after the block at a position. -/
def absorb (t : Text) (r : Registers) (i : Nat) : Registers :=
  let rounds := List.zip roundConstants (schedule t i).toList
  r.add (rounds.foldl (fun r (k, w) => round r k w) r)

/-- The text with a one bit, zeros and its length in bits behind it, a whole number of blocks. -/
def pad (t : Text) : Text :=
  let zeros := (119 - t.size % 64) % 64
  let bits := t.size * 8
  let length := (List.range 8).map fun k => UInt8.ofNat (bits >>> (8 * (7 - k)))
  t ++ Text.ofList (0x80 :: List.replicate zeros 0 ++ length)

/-- The four bytes of a word, the highest first. -/
def wordBytes (w : UInt32) : List UInt8 :=
  [(w >>> 24).toUInt8, (w >>> 16).toUInt8, (w >>> 8).toUInt8, w.toUInt8]

/-- The SHA-256 digest of a text. -/
def sha256 (t : Text) : Text :=
  let padded := pad t
  let blocks := (List.range (padded.size / 64)).map (64 * ·)
  let final := blocks.foldl (absorb padded) Registers.start
  Text.ofList (final.toList.flatMap wordBytes)

end Digest
end ScriptEngine
