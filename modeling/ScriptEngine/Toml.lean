import ScriptEngine.Text

/-!
# Settings files

A settings file is a list of lines, each a table header or an assignment. This module holds what
they are made of; a line is kept as it was written, and what the lines mean together is decided
when they are put into a document.
-/

namespace ScriptEngine
namespace Toml

/-- The parts of a dotted name. -/
abbrev Name := List Text

/-- A value as it was written. Numbers with a fraction and points in time are kept as text, which
was checked to be well-formed. -/
inductive Literal where
  | text (t : Text)
  | integer (i : Int)
  | float (digits : Text)
  | boolean (b : Bool)
  | datetime (digits : Text)
  | array (items : List Literal)
  | table (entries : List (Name × Literal))
  deriving Inhabited

/-- Whether a value is an array. -/
def Literal.isArray : Literal → Bool
  | .array _ => true
  | _ => false

/-- One line of a file. -/
inductive Line where
  /-- The header of a table. -/
  | table (name : Name)
  /-- The header of one more element of an array of tables. -/
  | element (name : Name)
  | assign (name : Name) (value : Literal)
  deriving Inhabited

/-- What a reader found and the rest of its input. -/
abbrev Found (α : Type) := Option (α × List Char)

/-- Whether a character separates words on a line. -/
def isSpace (c : Char) : Bool :=
  c == ' ' || c == '\t'

def isNewline (c : Char) : Bool :=
  c == '\n' || c == '\r'

/-- Skips blanks and tabs. -/
def skipSpace (cs : List Char) : List Char :=
  cs.dropWhile isSpace

/-- Skips white space, ends of lines and comments. -/
def skipVoid (inComment : Bool) : List Char → List Char
  | [] => []
  | c :: rest =>
    if inComment then skipVoid (c != '\n') rest
    else if isSpace c || isNewline c then skipVoid false rest
    else if c == '#' then skipVoid true rest
    else c :: rest

/-- Whether every character may stand in a file: no control characters but tabs and ends of lines,
and a carriage return only before a line feed. -/
def allowed : List Char → Bool
  | [] => true
  | '\r' :: rest =>
    match rest with
    | '\n' :: _ => allowed rest
    | _ => false
  | c :: rest =>
    (c == '\t' || c == '\n' || (0x20 ≤ c.toNat && c.toNat != 0x7F)) && allowed rest

/-- The bytes without a mark of the byte order in front. -/
def withoutMark (t : Text) : Text :=
  if t.startsWith (Text.ofList [0xFF, 0xFE]) || t.startsWith (Text.ofList [0xFE, 0xFF]) then
    t.drop 2
  else if t.startsWith (Text.ofList [0xEF, 0xBB, 0xBF]) then t.drop 3
  else t

/-- The text of some characters. -/
def textOf (cs : List Char) : Text :=
  Text.ofString (String.ofList cs)

end Toml
end ScriptEngine
