import ScriptEngine.Toml.Numbers
import ScriptEngine.Toml.Strings

/-!
# Reading settings files

A file is read line by line. A value may span lines: arrays and inline tables contain values, white
space, comments and, behind the last value, a comma.
-/

namespace ScriptEngine
namespace Toml

/-- Whether a character may stand in a name without quotes. -/
def isBare (c : Char) : Bool :=
  c.isAlphanum || c == '_' || c == '-'

/-- Reads one part of a name. -/
def readPartName (cs : List Char) : Found Text :=
  match cs with
  | '"' :: rest => readPlain '"' rest
  | '\'' :: rest => readPlain '\'' rest
  | cs =>
    let bare := cs.takeWhile isBare
    if bare.isEmpty then none else some (textOf bare, cs.dropWhile isBare)

/-- Reads a dotted name of at most `fuel` parts; white space may surround every part. -/
def readName : Nat → List Char → Found Name
  | 0, _ => none
  | fuel + 1, cs =>
    match readPartName (skipSpace cs) with
    | none => none
    | some (part, rest) =>
      match skipSpace rest with
      | '.' :: rest => (readName fuel rest).map fun (parts, rest) => (part :: parts, rest)
      | rest => some ([part], rest)

mutual

/-- Reads a value, nested at most `fuel` deep. -/
def readValue : Nat → List Char → Found Literal
  | 0, _ => none
  | fuel + 1, cs =>
    match skipSpace cs with
    | '"' :: rest => (readString '"' rest).map fun (t, rest) => (.text t, rest)
    | '\'' :: rest => (readString '\'' rest).map fun (t, rest) => (.text t, rest)
    | '[' :: rest => readItems fuel [] rest
    | '\x7b' :: rest => readEntries fuel [] rest
    | 't' :: 'r' :: 'u' :: 'e' :: rest => some (.boolean true, rest)
    | 'f' :: 'a' :: 'l' :: 's' :: 'e' :: rest => some (.boolean false, rest)
    | 'i' :: 'n' :: 'f' :: rest => some (.float "inf", rest)
    | 'n' :: 'a' :: 'n' :: rest => some (.float "nan", rest)
    | '+' :: rest => readSigned '+' rest
    | '-' :: rest => readSigned '-' rest
    | c :: rest => if c.isDigit then readNumber (c :: rest) else none
    | [] => none

/-- Reads the values of an array behind its opening bracket or a comma. -/
def readItems : Nat → List Literal → List Char → Found Literal
  | 0, _, _ => none
  | fuel + 1, acc, cs =>
    match skipVoid false cs with
    | ']' :: rest => some (.array acc.reverse, rest)
    | cs =>
      match readValue fuel cs with
      | none => none
      | some (v, rest) =>
        match skipVoid false rest with
        | ',' :: rest => readItems fuel (v :: acc) rest
        | ']' :: rest => some (.array (v :: acc).reverse, rest)
        | _ => none

/-- Reads the assignments of an inline table behind its opening brace or a comma. -/
def readEntries : Nat → List (Name × Literal) → List Char → Found Literal
  | 0, _, _ => none
  | fuel + 1, acc, cs =>
    match skipVoid false cs with
    | '\x7d' :: rest => some (.table acc.reverse, rest)
    | cs =>
      match readAssignment fuel cs with
      | none => none
      | some (entry, rest) =>
        match skipVoid false rest with
        | ',' :: rest => readEntries fuel (entry :: acc) rest
        | '\x7d' :: rest => some (.table (entry :: acc).reverse, rest)
        | _ => none

/-- Reads a name, an equals sign and a value. -/
def readAssignment : Nat → List Char → Found (Name × Literal)
  | 0, _ => none
  | fuel + 1, cs =>
    match readName (cs.length + 1) cs with
    | some (name, '=' :: rest) =>
      (readValue fuel rest).map fun (v, rest) => ((name, v), rest)
    | _ => none

end

/-- What may follow on a line: white space and a comment. -/
def endOfLine (cs : List Char) : Option (List Char) :=
  match skipSpace cs with
  | [] => some []
  | '#' :: rest => some (rest.dropWhile (· != '\n'))
  | c :: rest => if isNewline c then some rest else none

/-- Reads one line that is not empty. -/
def readLineItem (cs : List Char) : Found Line :=
  let fuel := 2 * cs.length + 2
  match cs with
  | '[' :: '[' :: rest =>
    match readName fuel rest with
    | some (name, ']' :: ']' :: rest) => some (.element name, rest)
    | _ => none
  | '[' :: rest =>
    match readName fuel rest with
    | some (name, ']' :: rest) => some (.table name, rest)
    | _ => none
  | cs => (readAssignment fuel cs).map fun ((name, v), rest) => (.assign name v, rest)

/-- Reads lines until the end, at most `fuel` of them. -/
def readAllLines : Nat → List Line → List Char → Option (List Line)
  | 0, _, _ => none
  | fuel + 1, acc, cs =>
    match skipVoid false cs with
    | [] => some acc.reverse
    | cs =>
      match readLineItem cs with
      | none => none
      | some (line, rest) =>
        match endOfLine rest with
        | some rest => readAllLines fuel (line :: acc) rest
        | none => none

/-- The lines of a file; `none` if it is not well-formed. -/
def lines? (t : Text) : Option (List Line) :=
  match (withoutMark t).toString? with
  | none => none
  | some s =>
    let cs := s.toList
    if allowed cs then readAllLines (cs.length + 1) [] cs else none

end Toml
end ScriptEngine
