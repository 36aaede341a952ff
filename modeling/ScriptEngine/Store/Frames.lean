import ScriptEngine.Store

/-!
# Looking names up and binding them

Frames are linked outward. Every link leads to a frame created earlier, so a walk outward from
frame `f` takes at most `f + 1` steps, which is the fuel that walks are given.
-/

namespace ScriptEngine

namespace Frame

def isBoundary (f : Frame) : Bool :=
  match f.kind with
  | .block => false
  | .boundary .. => true

/-- The name of a boundary frame, empty for a block. -/
def name (f : Frame) : Text :=
  match f.kind with
  | .block => Text.empty
  | .boundary name .. => name

/-- The frame that a boundary frame returns to. -/
def caller (f : Frame) : Option FrameId :=
  match f.kind with
  | .block => none
  | .boundary _ _ caller _ => caller

/-- The call site of a boundary frame. -/
def site (f : Frame) : Option Span :=
  match f.kind with
  | .block => none
  | .boundary _ site _ _ => site

/-- The native that made the call of a boundary frame, empty if none did. -/
def native (f : Frame) : Text :=
  match f.kind with
  | .block => Text.empty
  | .boundary _ _ _ native => native

end Frame

namespace Store

/-- Walks outward at most `fuel` frames for a binding of `name`; a shallow walk ends at the first
boundary. Gives the value and the frame that holds it. -/
def lookupFrom (s : Store) (name : Text) (shallow : Bool) :
    Nat → Option FrameId → Option (Value × FrameId)
  | 0, _ => none
  | _, none => none
  | fuel + 1, some f =>
    match s.frame? f with
    | none => none
    | some fr =>
      match fr.vars.get? name with
      | some v => some (v, f)
      | none =>
        if shallow && fr.isBoundary then none else lookupFrom s name shallow fuel fr.outer

/-- The fuel of a walk that starts at a frame. -/
def walkFuel : Option FrameId → Nat
  | none => 0
  | some f => f + 1

/-- The nearest binding of a name, searched outward from a frame. -/
def lookup (s : Store) (f : Option FrameId) (name : Text) (shallow : Bool) :
    Option (Value × FrameId) :=
  s.lookupFrom name shallow (walkFuel f) f

/-- Walks outward at most `fuel` frames for a boundary. -/
def boundaryFrom (s : Store) : Nat → Option FrameId → Option FrameId
  | 0, _ => none
  | _, none => none
  | fuel + 1, some f =>
    match s.frame? f with
    | none => none
    | some fr => if fr.isBoundary then some f else boundaryFrom s fuel fr.outer

/-- The nearest boundary frame, a boundary frame being its own. -/
def boundary (s : Store) (f : Option FrameId) : Option FrameId :=
  s.boundaryFrom (walkFuel f) f

/-- Creates or overwrites a binding in a frame. -/
def define (s : Store) (f : FrameId) (name : Text) (v : Value) : Store :=
  { s with frames := s.frames.modify f fun fr => { fr with vars := fr.vars.insert name v } }

/-- Writes the nearest binding inside the current function, or a new one in the frame itself. -/
def setNearest (s : Store) (f : FrameId) (name : Text) (v : Value) : Store :=
  match s.lookup (some f) name true with
  | some (_, owner) => s.define owner name v
  | none => s.define f name v

/-- Writes the nearest binding beyond the current function, or a new one in the frame around the
function; at the root, the root's own. -/
def setOuter (s : Store) (f : FrameId) (name : Text) (v : Value) : Store :=
  match s.boundary (some f) with
  | none => s.define f name v
  | some b =>
    match (s.frame? b).bind (·.outer) with
    | none => s.define b name v
    | some around =>
      match s.lookup (some around) name false with
      | some (_, owner) => s.define owner name v
      | none => s.define around name v

end Store
end ScriptEngine
