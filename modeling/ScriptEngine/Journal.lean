import ScriptEngine.Text

/-!
# The journal

The engine and the compiler tell a journal what they do. Only the first messages are kept, and
only if someone wants them; how many there were is always known.
-/

namespace ScriptEngine

/-- How important a message is. -/
inductive Level where
  | debug
  | info
  | error
  deriving DecidableEq, Inhabited

def Level.name : Level → String
  | debug => "debug"
  | info => "info"
  | error => "error"

/-- The part of the system a message comes from. -/
inductive Logger where
  | engine
  | compiler
  deriving DecidableEq, Inhabited

def Logger.name : Logger → String
  | engine => "plang.vm"
  | compiler => "plang.compiler"

/-- One message. -/
structure Message where
  level : Level
  logger : Logger
  text : Text
  deriving DecidableEq, Inhabited

/-- The message as a line: level, origin and text. -/
def Message.line (m : Message) : Text :=
  m.level.name ++ " " ++ Text.ofString m.logger.name ++ " " ++ m.text

/-- The messages so far. -/
structure Journal where
  recording : Bool
  messages : Array Message
  total : Nat
  deriving Inhabited

namespace Journal

/-- How many messages are kept. -/
def limit : Nat :=
  200

/-- An empty journal. -/
def new (recording : Bool) : Journal :=
  ⟨recording, #[], 0⟩

/-- Adds a message. -/
def add (j : Journal) (m : Message) : Journal :=
  if !j.recording then j
  else
    { j with
      messages := if j.messages.size < limit then j.messages.push m else j.messages
      total := j.total + 1 }

end Journal
end ScriptEngine
