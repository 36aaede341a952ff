import ScriptEngine.Cbor

/-!
# Reading binary items

A reader accepts every well-formed item: integers and lengths in more bytes than they need, strings
and containers of indefinite length, and any tags. It refuses items that are nested too deeply, too
many elements, cut or trailing input, and codes without a meaning.
-/

namespace ScriptEngine
namespace Cbor

/-- How deep containers and tags may be nested. -/
def maxDepth : Nat :=
  32

/-- How many elements an array, or pairs a map, may have. -/
def maxElements : Nat :=
  131072

/-- The argument of an item. -/
inductive Argument where
  | value (n : Nat)
  /-- The item goes on until a break code. -/
  | untilBreak

/-- The first bytes of an item. -/
structure Head where
  major : Nat
  /-- The low five bits of the first byte. -/
  info : Nat
  argument : Argument

/-- Bytes as a number, the highest first. -/
def number (bytes : List UInt8) : Nat :=
  bytes.foldl (fun n b => n * 256 + b.toNat) 0

/-- Cuts the first `n` elements off, of which there must be so many. -/
def cut? {α : Type} (n : Nat) (l : List α) : Option (List α × List α) :=
  go n l []
where
  go : Nat → List α → List α → Option (List α × List α)
    | 0, l, acc => some (acc.reverse, l)
    | _ + 1, [], _ => none
    | n + 1, a :: l, acc => go n l (a :: acc)

/-- Whether major types 2 to 5 only, the strings and containers, may have no length. -/
def mayBeIndefinite (major : Nat) : Bool :=
  2 ≤ major && major ≤ 5

/-- Reads the first bytes of an item. -/
def readHead : List UInt8 → Option (Head × List UInt8)
  | [] => none
  | b :: rest =>
    let major := b.toNat / 32
    let info := b.toNat % 32
    let wide (width : Nat) : Option (Head × List UInt8) :=
      match cut? width rest with
      | none => none
      | some (bytes, rest) => some (⟨major, info, .value (number bytes)⟩, rest)
    if info < 24 then some (⟨major, info, .value info⟩, rest)
    else if info == 24 then wide 1
    else if info == 25 then wide 2
    else if info == 26 then wide 4
    else if info == 27 then wide 8
    else if info == 31 && mayBeIndefinite major then some (⟨major, info, .untilBreak⟩, rest)
    else none

/-- The byte that ends items of indefinite length. -/
def breakCode : UInt8 :=
  0xFF

/-- A string of known length. -/
def readString (n : Nat) (rest : List UInt8) : Option (Text × List UInt8) :=
  match cut? n rest with
  | none => none
  | some (bytes, rest) => some (Text.ofList bytes, rest)

/-- Reads the chunks of a string of indefinite length, each of the same major type and of known
length, at most `fuel` of them. -/
def readChunks (major : Nat) : Nat → List Text → List UInt8 → Option (List Text × List UInt8)
  | 0, _, _ => none
  | fuel + 1, acc, bytes =>
    match bytes with
    | [] => none
    | b :: rest =>
      if b == breakCode then some (acc.reverse, rest)
      else
        match readHead bytes with
        | some (⟨m, _, .value n⟩, rest) =>
          if m == major then
            match readString n rest with
            | some (chunk, rest) => readChunks major fuel (chunk :: acc) rest
            | none => none
          else none
        | _ => none

/-- An item of major type 7. -/
def simpleOrFloat (info n : Nat) : Option Item :=
  if info < 24 then some (.simple n)
  else if info == 24 then (if n < 32 then none else some (.simple n))
  else if info == 25 then some (.float 2 n)
  else if info == 26 then some (.float 4 n)
  else some (.float 8 n)

/-- Neighbours as pairs; `none` if one is left over. -/
def pairUp {α : Type} : List α → List (α × α) → Option (List (α × α))
  | [], acc => some acc.reverse
  | [_], _ => none
  | a :: b :: rest, acc => pairUp rest ((a, b) :: acc)

mutual

/-- Reads one item inside `depth` containers; `tagged` says that a tag stands before it. -/
def readItem : Nat → Nat → Bool → List UInt8 → Option (Item × List UInt8)
  | 0, _, _, _ => none
  | fuel + 1, depth, tagged, bytes =>
    match readHead bytes with
    | none => none
    | some (⟨major, info, argument⟩, rest) =>
      match major, argument with
      | 0, .value n => some (.unsigned n, rest)
      | 1, .value n => some (.negative n, rest)
      | 2, .value n => (readString n rest).map fun (s, rest) => (.bytes [s], rest)
      | 2, .untilBreak =>
        (readChunks 2 (rest.length + 1) [] rest).map fun (s, rest) => (.bytes s, rest)
      | 3, .value n => (readString n rest).map fun (s, rest) => (.text [s], rest)
      | 3, .untilBreak =>
        (readChunks 3 (rest.length + 1) [] rest).map fun (s, rest) => (.text s, rest)
      | 4, argument =>
        if maxDepth ≤ depth then none
        else
          match readContents fuel (depth + 1) maxElements 1 argument rest with
          | some (items, rest) => some (.array items, rest)
          | none => none
      | 5, argument =>
        if maxDepth ≤ depth then none
        else
          match readContents fuel (depth + 1) maxElements 2 argument rest with
          | some (items, rest) => (pairUp items []).map fun entries => (.map entries, rest)
          | none => none
      | 6, .value n =>
        let depth := if tagged then depth + 1 else depth
        if maxDepth < depth then none
        else
          match readItem fuel depth true rest with
          | some (content, rest) => some (.tag n content, rest)
          | none => none
      | _, .value n => (simpleOrFloat info n).map fun i => (i, rest)
      | _, .untilBreak => none

/-- Reads the items of a container with at most `limit` elements of `each` items. -/
def readContents : Nat → Nat → Nat → Nat → Argument → List UInt8 →
    Option (List Item × List UInt8)
  | 0, _, _, _, _, _ => none
  | fuel + 1, depth, limit, each, argument, bytes =>
    match argument with
    | .value n => if limit < n then none else readMany fuel depth (each * n) [] bytes
    | .untilBreak => readUntilBreak fuel depth (each * limit) [] bytes

/-- Reads `n` items. -/
def readMany : Nat → Nat → Nat → List Item → List UInt8 → Option (List Item × List UInt8)
  | 0, _, _, _, _ => none
  | fuel + 1, depth, n, acc, bytes =>
    if n == 0 then some (acc.reverse, bytes)
    else
      match readItem fuel depth false bytes with
      | some (i, rest) => readMany fuel depth (n - 1) (i :: acc) rest
      | none => none

/-- Reads items up to a break code, at most `room` of them. -/
def readUntilBreak : Nat → Nat → Nat → List Item → List UInt8 → Option (List Item × List UInt8)
  | 0, _, _, _, _ => none
  | fuel + 1, depth, room, acc, bytes =>
    match bytes with
    | [] => none
    | b :: rest =>
      if b == breakCode then some (acc.reverse, rest)
      else if room == 0 then none
      else
        match readItem fuel depth false bytes with
        | some (i, rest) => readUntilBreak fuel depth (room - 1) (i :: acc) rest
        | none => none

end

/-- Reads bytes that hold exactly one item. Every call but those that enter a container consumes
a byte, which bounds how many of them can follow each other. -/
def decode (bytes : List UInt8) : Option Item :=
  match readItem (3 * bytes.length + 3) 0 false bytes with
  | some (i, []) => some i
  | _ => none

end Cbor
end ScriptEngine
