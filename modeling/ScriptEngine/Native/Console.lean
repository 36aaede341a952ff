import ScriptEngine.Native.Primitive

/-!
# Functions of the host

Printing, reading lines and files, code of the surrounding system, and assertions.
-/

namespace ScriptEngine
namespace Native

/-- The texts of some values with blanks between them. -/
def joinDisplay (args : List Value) : Effect Text :=
  Effect.reads fun s => Text.join " " (args.map s.display)

/-- Prints a text. -/
def print (t : Text) : Effect Unit :=
  Effect.onHost fun h => ((), h.print t)

/-- What a host answers to foreign code with bindings. -/
def runForeign (code : Text) (bindings : List (Text × Value)) : Effect Value := do
  let mode ← Effect.onHost fun h => (h.foreign, h)
  match mode with
  | .unsupported =>
    Effect.raise .hostCall
      "foreign code failed: foreign code execution is not supported by this host"
  | .failing => Effect.raise .hostCall ("foreign code failed: bad code " ++ code)
  | .silent => pure .null
  | .echo => do
    let entries ← Effect.reads fun s => bindings.map fun (k, v) => k ++ "=" ++ s.repr v
    pure (.text (code ++ "|" ++ Text.join ";" (Text.sort entries)))

def consolePrimitives : List Primitive :=
  [ .function "say" none fun args => do
      let t ← joinDisplay args
      print (t ++ "\n")
      pure .null,
    .function "write" none fun args => do
      let t ← joinDisplay args
      print t
      pure .null,
    .function "input" none fun args => do
      if 1 < args.length then
        Effect.raise .arity ("input expects at most 1 argument, got " ++ Text.ofNat args.length)
      let prompt ← joinDisplay args
      let line ← Effect.onHost fun h => h.readLine prompt
      match line with
      | some t => pure (.text t)
      | none => pure .null,
    .function "flush" (some 0) fun _ => pure .null,
    .function "read_file" (some 1) fun
      | [v] => do
        let path ← Effect.textArg "read_file" v
        let contents ← Effect.onHost fun h => (h.readFile path, h)
        match contents with
        | some t => pure (.text t)
        | none => Effect.raise .hostCall ("cannot read file " ++ path.quoted)
      | _ => Effect.impossible,
    .function "foreign" none fun
      | [c] => do
        let code ← Effect.textArg "foreign" c
        runForeign code []
      | [c, b] => do
        let code ← Effect.textArg "foreign" c
        let d ← Effect.dictArg "foreign" b
        let bindings ← Effect.reads fun s => (s.dict d).entries
        runForeign code bindings
      | args =>
        Effect.raise .arity ("foreign expects 1 or 2 arguments, got " ++ Text.ofNat args.length),
    .function "assert" none fun
      | [c] => do
        let holds ← Effect.booleanArg "assert" c
        if holds then pure .null else Effect.raise .hostCall "assertion failed"
      | [c, m] => do
        let holds ← Effect.booleanArg "assert" c
        if holds then pure .null
        else
          let t ← Effect.display m
          Effect.raise .hostCall ("assertion failed: " ++ t)
      | args =>
        Effect.raise .arity ("assert expects 1 or 2 arguments, got " ++ Text.ofNat args.length) ]

end Native
end ScriptEngine
