import ScriptEngine.Cbor.Reading
import ScriptEngine.Number.Binary
import ScriptEngine.Report

/-!
# Reports on the wire

A report is a map whose keys are small integers. Writing is canonical. Reading is lenient: fields
may be missing or null, unknown fields are ignored, the first of several equal keys counts, and a
key may be written as text.
-/

namespace ScriptEngine
namespace Report

open Cbor (Item)

/-!
## Writing
-/

/-- A map of numbered fields, without those that are absent. -/
def fieldMap (fields : List (Nat × Option Item)) : Item :=
  .map (fields.filterMap fun (n, i) => i.map fun i => (.unsigned n, i))

def spanItem (s : Span) : Item :=
  fieldMap
    [(1, some (.string s.file)), (2, some (.int s.start.line)), (3, some (.int s.start.column)),
      (4, some (.int s.stop.line)), (5, some (.int s.stop.column))]

def problemItem (p : Problem) : Item :=
  fieldMap
    [(1, some (.string p.code)), (2, some (.string p.message)), (3, some (.string p.hint)),
      (4, p.span.map spanItem)]

def frameItem (f : TraceFrame) : Item :=
  fieldMap [(1, some (.string f.name)), (2, f.span.map spanItem)]

/-- The report as an item. Frames are left out where there are none; problems never are. -/
def toItem (r : Report) : Item :=
  let frames := if r.frames.isEmpty then none else some (.array (r.frames.map frameItem))
  fieldMap
    [(1, some (.blob r.runId)), (2, some (.unsigned r.stage.number)), (3, some (.blob r.hash)),
      (4, some (.array (r.problems.map problemItem))), (5, frames), (6, some (.int r.created))]

/-- The report as bytes. -/
def encode (r : Report) : Text :=
  Text.ofList (Cbor.encode r.toItem)

/-!
## Reading
-/

/-- Marks data as an item of this format. -/
def selfDescribed : Nat :=
  55799

/-- The tags of large integers, positive and negative. -/
def isBignum (n : Nat) : Bool :=
  n == 2 || n == 3

/-- Whether a tag with a meaning of its own stands before content it can have: a text for a date,
a number for a time, bytes for a large integer. -/
def admissible (tag : Nat) (content : Item) : Bool :=
  match tag, content with
  | 0, .text _ => true
  | 0, _ => false
  | 1, .unsigned _ | 1, .negative _ | 1, .float .. => true
  | 1, _ => false
  | 2, .bytes _ | 3, .bytes _ => true
  | 2, _ | 3, _ => false
  | _, _ => true

/-- The item behind its tags, which must be admissible. Large integers keep theirs. -/
def untag : Item → Option Item
  | .tag n content =>
    if n == selfDescribed then untag content
    else if !admissible n content then none
    else if isBignum n then some (.tag n content)
    else untag content
  | i => some i

/-- The value of null and of undefined. -/
def isNull : Item → Bool
  | .simple n => n == 22 || n == 23
  | _ => false

/-- The text of valid chunks. -/
def joinValid (chunks : List Text) : Option Text :=
  if chunks.all Text.isUtf8 then some (Text.concat chunks) else none

/-- A text; null stands for the empty one. -/
def readText (i : Item) : Option Text :=
  match untag i with
  | some (.text chunks) => joinValid chunks
  | some i => if isNull i then some Text.empty else none
  | none => none

/-- The natural number that bytes denote, the highest first. -/
def natOf (chunks : List Text) : Nat :=
  Cbor.number (Text.concat chunks).toList

/-- An integer; null stands for zero, and a simple value for its number. -/
def readInteger (i : Item) : Option Int :=
  match untag i with
  | some (.unsigned n) => some n
  | some (.negative n) => some (-1 - n)
  | some (.tag 2 (.bytes chunks)) => some (natOf chunks)
  | some (.tag 3 (.bytes chunks)) => some (-1 - natOf chunks)
  | some (.simple n) =>
    if n == 22 || n == 23 then some 0
    else if n == 20 || n == 21 then none
    else some n
  | _ => none

/-- An integer of 64 bits. -/
def readWord (i : Item) : Option Int :=
  match readInteger i with
  | some n => if Number.fitsWord n then some n else none
  | none => none

/-- A natural number of eight bits. -/
def readByte (i : Item) : Option Nat :=
  match readInteger i with
  | some n => if 0 ≤ n && n < 256 then some n.toNat else none
  | none => none

/-- The first `n` bytes of a text, filled up with zeros. -/
def fit (n : Nat) (t : Text) : Text :=
  t.take n ++ zeros (n - t.size)

/-- A row of `n` bytes given as an array, which is cut or filled up with zeros. -/
def readByteArray (n : Nat) (items : List Item) : Option Text :=
  match (items.take n).mapM readByte with
  | some bytes => some (fit n (Text.ofList (bytes.map UInt8.ofNat)))
  | none => none

/-- The bytes of a byte string, or of a large integer. -/
def byteString? : Item → Option Text
  | .bytes chunks => some (Text.concat chunks)
  | .tag _ (.bytes chunks) => some (Text.concat chunks)
  | _ => none

/-- A row of `n` bytes; with `exact`, a byte string has to have that length. -/
def readBytes (n : Nat) (exact : Bool) (i : Item) : Option Text :=
  match untag i with
  | none => none
  | some (.array items) => readByteArray n items
  | some i =>
    if isNull i then some (zeros n)
    else
      match byteString? i with
      | none => none
      | some t => if exact && t.size != n then none else some (fit n t)

/-- The keys of a map. -/
inductive FieldKey where
  | number (i : Int)
  | name (t : Text)

/-- Reads a key, which must be an integer or a valid text. -/
def readKey : Item → Option FieldKey
  | .unsigned n => some (.number n)
  | .negative n => if Number.fitsWord (-1 - n) then some (.number (-1 - n)) else none
  | .text chunks => (joinValid chunks).map .name
  | _ => none

/-- Whether a key stands for a numbered field. -/
def FieldKey.names (k : FieldKey) (n : Nat) : Bool :=
  match k with
  | .number i => i == n
  | .name t => t == Text.ofNat n

/-- The fields of a record by their keys. -/
abbrev Fields := List (FieldKey × Item)

/-- The entries of a record; null stands for a record without any. -/
def readFields (i : Item) : Option Fields :=
  match untag i with
  | some (.map entries) => entries.mapM fun (k, v) => (readKey k).map fun k => (k, v)
  | some i => if isNull i then some [] else none
  | none => none

/-- Reads a field, the first of several; `missing` stands for an absent one. -/
def Fields.read {α : Type} (fields : Fields) (n : Nat) (missing : α) (f : Item → Option α) :
    Option α :=
  match fields.find? fun (k, _) => k.names n with
  | some (_, i) => f i
  | none => some missing

def readSpan (i : Item) : Option Span := do
  let fields ← readFields i
  let file ← fields.read 1 Text.empty readText
  let line ← fields.read 2 0 readWord
  let column ← fields.read 3 0 readWord
  let stopLine ← fields.read 4 0 readWord
  let stopColumn ← fields.read 5 0 readWord
  pure ⟨file, ⟨line, column⟩, ⟨stopLine, stopColumn⟩⟩

/-- A place that may be null; a null behind a tag is a place without content. -/
def readPlace (i : Item) : Option (Option Span) :=
  if isNull i then some none else (readSpan i).map some

def readProblem (i : Item) : Option Problem := do
  let fields ← readFields i
  let code ← fields.read 1 Text.empty readText
  let message ← fields.read 2 Text.empty readText
  let hint ← fields.read 3 Text.empty readText
  let span ← fields.read 4 none readPlace
  pure ⟨code, span, message, hint⟩

def readFrame (i : Item) : Option TraceFrame := do
  let fields ← readFields i
  let name ← fields.read 1 Text.empty readText
  let span ← fields.read 2 none readPlace
  pure ⟨name, span⟩

/-- A list; null stands for the empty one. -/
def readList {α : Type} (f : Item → Option α) (i : Item) : Option (List α) :=
  match untag i with
  | some (.array items) => items.mapM f
  | some i => if isNull i then some [] else none
  | none => none

/-- The report that an item describes. -/
def ofItem? (i : Item) : Option Report := do
  let fields ← readFields i
  let runId ← fields.read 1 (zeros 16) (readBytes 16 true)
  let stage ← fields.read 2 0 readByte
  let hash ← fields.read 3 (zeros 32) (readBytes 32 false)
  let problems ← fields.read 4 [] (readList readProblem)
  let frames ← fields.read 5 [] (readList readFrame)
  let created ← fields.read 6 0 readWord
  pure ⟨runId, ⟨stage⟩, hash, problems, frames, created⟩

/-- The report in some bytes. -/
def decode? (t : Text) : Option Report :=
  (Cbor.decode t.toList).bind ofItem?

end Report
end ScriptEngine
