import ScriptEngine.Text

/-!
# Slash-separated paths

Paths are read by their text alone: cleaning removes empty and `.` elements and resolves `..`
against the element before it.
-/

namespace ScriptEngine
namespace Path

/-- The slash. -/
def slash : Text :=
  "/"

def dot : Text :=
  "."

def dotDot : Text :=
  ".."

/-- Whether a path starts at the root. -/
def isAbsolute (p : Text) : Bool :=
  p.startsWith slash

/-- The elements between slashes, empty ones included. -/
def elements (p : Text) : List Text :=
  p.splitOn slash

/-- Adds one element to the elements so far, which are kept last first. Above the root `..` stays
at the root; a relative path keeps the `..` it cannot resolve. -/
def push (absolute : Bool) (kept : List Text) (element : Text) : List Text :=
  if element.isEmpty || element == dot then kept
  else if element == dotDot then
    match kept with
    | [] => if absolute then [] else [dotDot]
    | last :: rest => if last == dotDot then dotDot :: last :: rest else rest
  else element :: kept

/-- The elements of a cleaned path in order. -/
def cleanElements (p : Text) : List Text :=
  ((elements p).foldl (push (isAbsolute p)) []).reverse

/-- The shortest path of the same meaning. -/
def clean (p : Text) : Text :=
  let body := Text.join slash (cleanElements p)
  if isAbsolute p then slash ++ body
  else if body.isEmpty then dot
  else body

/-- Joins path elements with slashes, leaving out empty ones, and cleans the result. -/
def join (parts : List Text) : Text :=
  let kept := parts.filter fun p => !p.isEmpty
  if kept.isEmpty then Text.empty else clean (Text.join slash kept)

/-- The directory of a path: everything but its last element, cleaned. -/
def dir (p : Text) : Text :=
  let parts := elements p
  let front := parts.dropLast
  if front.isEmpty then dot else clean (Text.join slash front ++ slash)

/-- The last element of a path. -/
def base (p : Text) : Text :=
  if p.isEmpty then dot
  else
    match (elements p).filter (fun e => !e.isEmpty) |>.getLast? with
    | some last => last
    | none => slash

end Path
end ScriptEngine
