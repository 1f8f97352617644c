import AnnotationCodec.CommandLine.Program
import Std.Time.Format

/-!
The program at work: it gathers what the library's program finds when it starts, runs that, and carries out what
was written.
-/

namespace AnnotationCodec.Main

/-- The ends of the names of the variables that the program knows. -/
def variableNames : List String :=
  ["ANNOTATION_DOMAIN", "CONFIG", "DEBUG", "DEBUG_FILE", "DEBUG_VERBOSE"]

def readVariables : IO (List (Text × Text)) :=
  variableNames.filterMapM fun name => do
    let full := "MANIFEST_ANNOTATIONS_" ++ name
    return (← IO.getEnv full).map fun value => (text full, text value)

/-- A text as it is shown; lone surrogates are shown by their numbers. -/
def shown (t : Text) : String :=
  String.ofList (t.flatMap fun c =>
    let c : CodePoint := c
    if c.isHighSurrogate || c.isLowSurrogate then
      ['\\', 'u'] ++ (Text.hex false 4 c.val).map fun d => Char.ofNat d.val
    else [Char.ofNat c.val])

/-- The content of a file under its path, if it can be read. -/
def readFile (path : String) : IO (Option (Text × Text)) := do
  try
    return some (text path, text (← IO.FS.readFile path))
  catch _ => return none

/-- A file that can be written to, under its path. -/
def openFile (path : String) : IO (Option (Text × Text)) := do
  try
    let _ ← IO.FS.Handle.mk path .append
    return some (text path, [])
  catch _ => return none

/-- The local time as messages show it, down to the minute. -/
def clock : IO Text := do
  let t ← Std.Time.PlainDateTime.now
  let date : Date := ⟨t.year.toInt.toNat, t.month.val.toNat, t.day.val.toNat⟩
  return date.iso ++ text " " ++ padded 2 t.hour.val.toNat ++ text ":" ++ padded 2 t.minute.val.toNat

/-- What a program writes when a failure ends it. -/
def failureText (f : Failure) : Text :=
  match f.message? with
  | .ok (some m) => text "Error: " ++ m ++ text "\n"
  | _ => text "Error\n"

/-- Carries out what a run wrote, and gives its exit status. -/
def finish (logPath : Option String) (r : Run Unit) : IO UInt32 := do
  (← IO.getStdout).putStr (shown r.output.out)
  (← IO.getStderr).putStr (shown r.output.err)
  if let some path := logPath then
    let h ← IO.FS.Handle.mk path .append
    h.putStr (shown r.output.file)
  if let .error (.failure f) := r.result then (← IO.getStderr).putStr (shown (failureText f))
  return (CommandLine.status r).toUInt32

def start (args : List String) : IO UInt32 := do
  let bindings ← readVariables
  let bare : Environment := ⟨bindings, []⟩
  match Log.Settings.ofEnvironment bare (← clock) with
  | .error f => finish none ⟨.empty, .error (.failure f)⟩
  | .ok log =>
    let configPath := shown ((bare.named? "CONFIG").getD []).strip
    let files ← (configPath :: args).filterMapM readFile
    let logPath := if log.hasFile then some (shown log.path) else none
    let logFile ← (logPath.toList).filterMapM openFile
    let input ← if args.contains "-" then (← IO.getStdin).readToEnd else pure ""
    let run := CommandLine.run ⟨⟨⟨bindings, files ++ logFile⟩, text input⟩, log, args.map text⟩
    finish (if logFile.isEmpty then none else logPath) run

end AnnotationCodec.Main

def main (args : List String) : IO UInt32 :=
  AnnotationCodec.Main.start args
