import ScriptEngine.Text

/-!
# Binary items

Reports travel as CBOR: a tree of integers, byte strings, texts, arrays, maps and tags. This module
holds the tree and its canonical form, in which every integer and length is written in as few bytes
as it needs.
-/

namespace ScriptEngine
namespace Cbor

/-- A data item. Texts and byte strings are kept in the chunks they came in, because each chunk of
a text has to be valid on its own. -/
inductive Item where
  | unsigned (n : Nat)
  /-- The integer `-1 - n`. -/
  | negative (n : Nat)
  | bytes (chunks : List Text)
  | text (chunks : List Text)
  | array (items : List Item)
  | map (entries : List (Item × Item))
  | tag (number : Nat) (content : Item)
  | simple (n : Nat)
  /-- A number in a binary format of the given width in bytes. -/
  | float (width : Nat) (bits : Nat)
  deriving Inhabited

namespace Item

/-- An integer. -/
def int (i : Int) : Item :=
  if i < 0 then .negative (-1 - i).toNat else .unsigned i.toNat

/-- A text in one piece. -/
def string (t : Text) : Item :=
  .text [t]

/-- A byte string in one piece. -/
def blob (t : Text) : Item :=
  .bytes [t]

end Item

/-- The `width` bytes of a number, the highest first. -/
def bigEndian (width n : Nat) : List UInt8 :=
  (List.range width).map fun k => UInt8.ofNat (n >>> (8 * (width - 1 - k)))

/-- The first bytes of an item: its major type and its argument, in as few bytes as possible. -/
def head (major n : Nat) : List UInt8 :=
  let first (info : Nat) : UInt8 := UInt8.ofNat (major * 32 + info)
  if n < 24 then [first n]
  else if n < 256 then first 24 :: bigEndian 1 n
  else if n < 65536 then first 25 :: bigEndian 2 n
  else if n < 4294967296 then first 26 :: bigEndian 4 n
  else first 27 :: bigEndian 8 n

/-- A byte string or text, joined into one piece. -/
def string (major : Nat) (chunks : List Text) : List UInt8 :=
  let whole := Text.concat chunks
  head major whole.size ++ whole.toList

/-- The additional information of a binary number of a given width. -/
def floatInfo (width : Nat) : Nat :=
  if width ≤ 2 then 25 else if width ≤ 4 then 26 else 27

mutual

/-- The bytes of an item. -/
def encode : Item → List UInt8
  | .unsigned n => head 0 n
  | .negative n => head 1 n
  | .bytes chunks => string 2 chunks
  | .text chunks => string 3 chunks
  | .array items => head 4 items.length ++ encodeAll items
  | .map entries => head 5 entries.length ++ encodeEntries entries
  | .tag number content => head 6 number ++ encode content
  | .simple n => head 7 n
  | .float width bits => UInt8.ofNat (7 * 32 + floatInfo width) :: bigEndian width bits

/-- The bytes of items one after the other. -/
def encodeAll : List Item → List UInt8
  | [] => []
  | i :: rest => encode i ++ encodeAll rest

/-- The bytes of keys and values one after the other. -/
def encodeEntries : List (Item × Item) → List UInt8
  | [] => []
  | (k, v) :: rest => encode k ++ (encode v ++ encodeEntries rest)

end

end Cbor
end ScriptEngine
