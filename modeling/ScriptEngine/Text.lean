/-!
# Byte strings

Every name, message and string value of the engine is a sequence of bytes that need not be valid
UTF-8. This module holds the type, its views and the operations that never look inside a character:
joining, cutting, searching and comparing.
-/

namespace ScriptEngine

/-- A finite sequence of bytes. -/
structure Text where
  bytes : ByteArray
  deriving Hashable, Inhabited

namespace Text

/-!
## Equality

Texts of different lengths are told apart at once, others by their last differing byte, because the
keys of the engine tend to differ at their ends.
-/

/-- Whether the first `n` bytes of two arrays agree. -/
def agree (a b : ByteArray) : (n : Nat) → n ≤ a.size → n ≤ b.size → Bool
  | 0, _, _ => true
  | n + 1, ha, hb => a[n] == b[n] && agree a b n (Nat.le_of_succ_le ha) (Nat.le_of_succ_le hb)

theorem agree_iff (a b : ByteArray) (n : Nat) (ha : n ≤ a.size) (hb : n ≤ b.size) :
    agree a b n ha hb = true ↔
      ∀ i (_ : i < a.size) (_ : i < b.size), i < n → a[i] = b[i] := by
  induction n with
  | zero => simp [agree]
  | succ n ih =>
    simp only [agree, Bool.and_eq_true, beq_iff_eq, ih]
    constructor
    · rintro ⟨last, others⟩ i hia hib hi
      by_cases h : i = n
      · subst h
        exact last
      · exact others i hia hib (by omega)
    · intro h
      exact ⟨h n (by omega) (by omega) (by omega), fun i hia hib hi => h i hia hib (by omega)⟩

/-- Whether two texts have the same bytes. -/
def same (s t : Text) : Bool :=
  if h : s.bytes.size = t.bytes.size then
    agree s.bytes t.bytes s.bytes.size (Nat.le_refl _) (Nat.le_of_eq h)
  else false

theorem same_iff (s t : Text) : same s t = true ↔ s = t := by
  obtain ⟨a⟩ := s
  obtain ⟨b⟩ := t
  unfold same
  split
  next h =>
    rw [agree_iff]
    constructor
    · intro hs
      exact congrArg mk (ByteArray.ext_getElem h fun i hia hib => hs i hia hib hia)
    · intro hab
      cases hab
      intros
      rfl
  next h =>
    constructor
    · intro hf
      cases hf
    · intro hab
      cases hab
      exact absurd rfl h

instance : DecidableEq Text := fun s t =>
  decidable_of_iff (same s t = true) (same_iff s t)

/-- The text that holds the UTF-8 encoding of a string. -/
def ofString (s : String) : Text :=
  ⟨s.toUTF8⟩

instance : Coe String Text :=
  ⟨ofString⟩

/-- The text with the given bytes in order. -/
def ofList (l : List UInt8) : Text :=
  ⟨l.toByteArray⟩

/-- The bytes of a text in order. -/
def toList (t : Text) : List UInt8 :=
  t.bytes.data.toList

def empty : Text :=
  ⟨ByteArray.empty⟩

/-- Number of bytes. -/
def size (t : Text) : Nat :=
  t.bytes.size

def isEmpty (t : Text) : Bool :=
  t.bytes.size == 0

def append (a b : Text) : Text :=
  ⟨a.bytes ++ b.bytes⟩

instance : Append Text :=
  ⟨append⟩

/-- The decimal digits of a natural number. -/
def ofNat (n : Nat) : Text :=
  ofString n.repr

/-- The decimal digits of an integer, with a minus sign in front of a negative one. -/
def ofInt (i : Int) : Text :=
  if i < 0 then ofString "-" ++ ofNat i.natAbs else ofNat i.natAbs

/-- The byte at a position, zero beyond the end. -/
def byteAt (t : Text) (i : Nat) : UInt8 :=
  if h : i < t.bytes.size then t.bytes[i] else 0

/-- The bytes from position `i` up to, not including, position `j`. -/
def slice (t : Text) (i j : Nat) : Text :=
  ⟨t.bytes.extract i j⟩

/-- Everything from position `i` on. -/
def drop (t : Text) (i : Nat) : Text :=
  t.slice i t.size

/-- The first `n` bytes. -/
def take (t : Text) (n : Nat) : Text :=
  t.slice 0 n

/-- Concatenation of a list of texts. -/
def concat (parts : List Text) : Text :=
  parts.foldl append empty

/-- The parts in order with `sep` between neighbours. -/
def join (sep : Text) : List Text → Text
  | [] => empty
  | first :: rest => rest.foldl (fun acc part => acc ++ sep ++ part) first

/-- So many copies of a text, one after the other. -/
def replicate (n : Nat) (t : Text) : Text :=
  Nat.fold n (fun _ _ acc => acc ++ t) empty

/-- So many blanks. -/
def blanks (n : Nat) : Text :=
  replicate n (ofString " ")

/-- The string with these bytes, if they are valid UTF-8. -/
def toString? (t : Text) : Option String :=
  String.fromUTF8? t.bytes

/-- Whether the bytes are valid UTF-8. -/
def isUtf8 (t : Text) : Bool :=
  t.bytes.validateUTF8

/-!
## Order

Texts are ordered by their first differing byte, a text being below each of its extensions.
-/

/-- Compares the bytes from position `i` on, for at most `fuel` positions. -/
def compareFrom (a b : Text) (i : Nat) : Nat → Ordering
  | 0 => .eq
  | fuel + 1 =>
    if ha : i < a.bytes.size then
      if hb : i < b.bytes.size then
        if a.bytes[i] < b.bytes[i] then .lt
        else if b.bytes[i] < a.bytes[i] then .gt
        else compareFrom a b (i + 1) fuel
      else .gt
    else if i < b.bytes.size then .lt else .eq

instance : Ord Text :=
  ⟨fun a b => compareFrom a b 0 (a.size + 1)⟩

/-- Strictly below in the byte order. -/
def before (a b : Text) : Bool :=
  compare a b == .lt

/-- Sorted by bytes; equal texts keep their order. -/
def sort (l : List Text) : List Text :=
  l.mergeSort (fun a b => !b.before a)

/-!
## Searching
-/

/-- Whether the bytes of `needle` from position `j` on stand at position `i`, for `n` positions. -/
def matchesFrom (t needle : Text) (i j : Nat) : Nat → Bool
  | 0 => true
  | n + 1 => t.byteAt i == needle.byteAt j && matchesFrom t needle (i + 1) (j + 1) n

/-- Whether `needle` stands at position `i`. -/
def hasAt (t needle : Text) (i : Nat) : Bool :=
  decide (i + needle.size ≤ t.size) && matchesFrom t needle i 0 needle.size

/-- Whether the text begins with `needle`. -/
def startsWith (t needle : Text) : Bool :=
  t.hasAt needle 0

/-- The first position at or after `i` where `needle` stands, looking at `fuel` positions. -/
def findFrom (t needle : Text) (i : Nat) : Nat → Option Nat
  | 0 => none
  | fuel + 1 => if t.hasAt needle i then some i else findFrom t needle (i + 1) fuel

/-- The first position where `needle` stands. -/
def find? (t needle : Text) : Option Nat :=
  t.findFrom needle 0 (t.size + 1)

def contains (t needle : Text) : Bool :=
  (t.find? needle).isSome

/-- The pieces of a text from position `start` on that stand between non-overlapping occurrences
of a non-empty separator, found from left to right. -/
def splitFrom (t sep : Text) (start : Nat) (acc : Array Text) : Nat → Array Text
  | 0 => acc.push (t.drop start)
  | fuel + 1 =>
    match t.findFrom sep start (t.size + 1 - start) with
    | none => acc.push (t.drop start)
    | some i => splitFrom t sep (i + sep.size) (acc.push (t.slice start i)) fuel

/-- The pieces of a text between occurrences of a non-empty separator. -/
def splitOn (t sep : Text) : List Text :=
  (t.splitFrom sep 0 #[] (t.size + 1)).toList

/-!
## Hexadecimal form
-/

/-- The lower-case hexadecimal digit of a number below sixteen. -/
def hexDigit (n : Nat) : UInt8 :=
  if n < 10 then UInt8.ofNat (48 + n) else UInt8.ofNat (87 + n)

/-- At least `width` lower-case hexadecimal digits of a number. -/
def hex (width n : Nat) : Text :=
  ofList (go width n [])
where
  go : Nat → Nat → List UInt8 → List UInt8
    | 0, _, acc => acc
    | w + 1, n, acc => go w (n / 16) (hexDigit (n % 16) :: acc)

/-- Two hexadecimal digits for every byte. -/
def toHex (t : Text) : Text :=
  ⟨t.bytes.foldl (fun acc b => (acc.push (hexDigit (b.toNat / 16))).push (hexDigit (b.toNat % 16)))
    ByteArray.empty⟩

/-- The value of a hexadecimal digit of either case. -/
def hexValue? (b : UInt8) : Option Nat :=
  let n := b.toNat
  if 48 ≤ n && n ≤ 57 then some (n - 48)
  else if 97 ≤ n && n ≤ 102 then some (n - 87)
  else if 65 ≤ n && n ≤ 70 then some (n - 55)
  else none

/-- The bytes written as pairs of hexadecimal digits. -/
def ofHex? (t : Text) : Option Text :=
  (go t.toList ByteArray.empty).map Text.mk
where
  go : List UInt8 → ByteArray → Option ByteArray
    | [], acc => some acc
    | [_], _ => none
    | a :: b :: rest, acc =>
      match hexValue? a, hexValue? b with
      | some x, some y => go rest (acc.push (UInt8.ofNat (16 * x + y)))
      | _, _ => none

end Text
end ScriptEngine
