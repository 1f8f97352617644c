import AnnotationCodec.Log.Basic

/-!
Logging by the names of its functions, with arguments by position and by name.
-/

namespace AnnotationCodec.Log

/-- The arguments of a call, in order and by name. -/
structure Arguments where
  positional : List Value
  named : List (Text × Value)

namespace Arguments

variable (a : Arguments)

/-- Gives each parameter its argument, if it has one. No argument may be left over, and no parameter may have
two. -/
def bind (parameters : List String) : Except Failure (List (Option Value)) :=
  let names := parameters.map text
  if parameters.length < a.positional.length then .error .unsupported
  else if a.named.any fun e => !(names.drop a.positional.length).contains e.1 then .error .unsupported
  else
    .ok (names.zipIdx.map fun (name, i) =>
      (a.positional[i]?).orElse fun _ => (a.named.find? fun e => e.1 = name).map Prod.snd)

end Arguments

/-- The functions that log on a level of their own. -/
def levelFunctions : List (Text × Level) :=
  [(text "info", .info), (text "debug", .debug), (text "warning", .warning), (text "error", .error),
    (text "critical", .critical)]

/-- Logs on a level with the arguments of a call; the level itself must not be given by name again. -/
def logCall (env : Environment) (s : Settings) (l : Level) (a : Arguments) : Run Unit :=
  if a.named.any fun e => e.1 = text "level" then Run.stop (.failure .unsupported)
  else log env s l a.positional a.named

/-- The level that a call gives, in front of its words or by name. -/
def leveled (a : Arguments) : Except Failure (Value × Arguments) :=
  match a.positional with
  | v :: words => .ok (v, { a with positional := words })
  | [] =>
    match a.named.find? fun e => e.1 = text "level" with
    | some e => .ok (e.2, { a with named := a.named.filter fun e => e.1 ≠ text "level" })
    | none => .error .unsupported

/-- Calls a function by its name, and gives the settings after it. -/
def call (env : Environment) (s : Settings) (name : Text) (a : Arguments) : Run Settings := do
  match levelFunctions.find? fun e => e.1 = name with
  | some e => logCall env s e.2 a; return s
  | none =>
    if name = text "log" then
      let (v, a) ← leveled a
      let l ← Level.ofValue v
      logCall env s l a
      return s
    else if name = text "debug_verbose" then
      logDetails env s a.positional a.named
      return s
    else if name = text "set_debug" then
      match ← a.bind ["enabled", "verbose"] with
      | [enabled, verbose] =>
        return { s with
          debug := (enabled.map Value.isTruthy).getD true
          verbose := (verbose.map Value.isTruthy).getD false }
      | _ => return s
    else if name = text "exit_catastrophic_failure" then
      match ← a.bind ["exitcode", "quiet"] with
      | [code, quiet] => exit env s (code.getD (.int 1)) ((quiet.map Value.isTruthy).getD false)
      | _ => return s
    else if name = text "print_yaml_dump" then
      match ← a.bind ["data"] with
      | [some v] => print v; return s
      | _ => Run.stop (.failure .unsupported)
    else Run.stop (.failure .noAttribute)

end AnnotationCodec.Log
