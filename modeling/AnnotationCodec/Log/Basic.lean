import AnnotationCodec.Environment
import AnnotationCodec.Run
import AnnotationCodec.Text.Lowercase
import AnnotationCodec.Yaml.Printer

/-!
Log messages. Every message that is not skipped is written to the log file, if there is one, and then shown;
debug messages are skipped unless they are switched on or a log file keeps them.
-/

namespace AnnotationCodec

/-- Reads a word for a truth value, in any case and with white space around it. -/
def Text.readTruth (t : Text) : Except Failure Bool :=
  let word := (Text.toLower t).strip
  if ["y", "yes", "t", "true", "on", "1"].any fun w => word = text w then .ok true
  else if ["n", "no", "f", "false", "off", "0", ""].any fun w => word = text w then .ok false
  else .error (.invalidTruth word)

namespace Value

def lowerByte (b : UInt8) : UInt8 :=
  if 0x41 ≤ b.toNat && b.toNat ≤ 0x5A then b + 32 else b

def isBlankByte (b : UInt8) : Bool :=
  b.toNat = 0x20 || (0x09 ≤ b.toNat && b.toNat ≤ 0x0D)

/-- The truth value that a text names; bytes name none. -/
def readTruth : Value → Except Failure Bool
  | .str t => t.readTruth
  | .bytes bs =>
    let stripped := ((bs.dropWhile isBlankByte).reverse.dropWhile isBlankByte).reverse
    .error (.invalidTruth (bytesLiteral (stripped.map lowerByte)))
  | _ => .error .noAttribute

end Value

namespace Log

inductive Level
  /-- Debug messages with all their details. -/
  | verbose
  | number (n : Int)
  /-- Any other level, by its text. -/
  | other (label : Text)
  deriving DecidableEq, Repr

namespace Level

def critical : Level := .number 50
def error : Level := .number 40
def warning : Level := .number 30
def info : Level := .number 20
def debug : Level := .number 10

/-- The names of levels. -/
def names : List (Int × Text) :=
  [(50, text "CRITICAL"), (40, text "ERROR"), (30, text "WARNING"), (20, text "INFO"),
    (10, text "DEBUG"), (0, text "NOTSET")]

/-- Names that stand for levels but are none. -/
def aliases : List Text :=
  [text "FATAL", text "WARN"]

/-- How messages name a level. -/
def label : Level → Text
  | .verbose => text "DEBUG"
  | .number n =>
    match names.find? fun e => e.1 = n with
    | some e => e.2
    | none => text "Level " ++ Integer.decimal n
  | .other t => text "Level " ++ t

/-- The level that a value names. Numbers of any type are the same level if they are equal. -/
def ofValue (v : Value) : Except Failure Level :=
  match v with
  | .int n =>
    match Integer.write n with
    | .ok _ => .ok (.number n)
    | .error .tooManyDigits => .error .unwritable
  | .str t =>
    if t = text "verbose debug" then .ok .verbose
    else if (names.any fun e => e.2 = t) || aliases.contains t then .error .unsupported
    else .ok (.other t)
  | v =>
    match names.find? fun e => v.sameKey (.int e.1) with
    | some e => .ok (.number e.1)
    | none =>
      if v.isHashable then (v.display.map Level.other).mapError fun _ => .unwritable
      else .error .unsupported

end Level

/-- What is logged, and where. -/
structure Settings where
  debug : Bool
  verbose : Bool
  /-- The path of the log file, empty if there is none. -/
  path : Text
  /-- The time in front of each message. -/
  clock : Text

namespace Settings

/-- Nothing but what is not for debugging is shown, and nothing is kept. -/
def quiet (clock : Text) : Settings :=
  ⟨false, false, [], clock⟩

/-- The settings that the variables ask for. -/
def ofEnvironment (env : Environment) (clock : Text) : Except Failure Settings := do
  let debug ← ((env.named? "DEBUG").getD (text "n")).readTruth
  let path := ((env.named? "DEBUG_FILE").getD []).strip
  let verbose ← ((env.named? "DEBUG_VERBOSE").getD (text "n")).readTruth
  return ⟨debug, verbose, path, clock⟩

variable (s : Settings)

def hasFile : Bool :=
  !s.path.isEmpty

/-- Whether a message is neither shown nor kept. -/
def skips (l : Level) : Bool :=
  (l = .debug && !s.debug && !s.hasFile) || (l = .verbose && !s.verbose && !s.hasFile)

/-- Whether a message is shown, if it is not skipped. -/
def displays (l : Level) : Bool :=
  (l = .debug && (s.debug || s.verbose)) || (l = .verbose && s.verbose) ||
    (l ≠ .debug && l ≠ .verbose)

end Settings

/-- The text of a value in a message. -/
def displayed (v : Value) : Except Failure Text :=
  v.display.mapError fun _ => .unwritable

/-- A message: its attributes with their values in quotes, and then its words. -/
def message (clock : Text) (l : Level) (words : List Value) (attributes : List (Text × Value)) :
    Except Failure Text := do
  let shown ← attributes.mapM fun (k, v) => do
    let t ← displayed v
    return k ++ text "=\"" ++ t ++ text "\""
  let list := if shown.isEmpty then [] else text "(" ++ Text.joinWith (text ",") shown ++ text ") "
  let words ← words.mapM displayed
  return clock ++ text " " ++ l.label ++ text " " ++ list ++ Text.joinWith (text " ") words

/-- Writes a line to the log file and shows it, as the settings say. -/
def put (env : Environment) (s : Settings) (l : Level) (line : Text) : Run Unit := do
  if s.hasFile then
    let _ ← (env.resolve s.path).mapError Failure.file
    Run.write ⟨[], [], line⟩
  if s.displays l then Run.write ⟨[], line, []⟩

/-- Logs a message on a level. -/
def log (env : Environment) (s : Settings) (l : Level) (words : List Value)
    (attributes : List (Text × Value)) : Run Unit :=
  if s.skips l then pure ()
  else do
    let m ← message s.clock l words attributes
    put env s l (m ++ text "\n")

/-- Logs words and attributes in full. -/
def logDetails (env : Environment) (s : Settings) (words : List Value)
    (attributes : List (Text × Value)) : Run Unit := do
  let details := Value.list [.list words, .map (attributes.map fun (k, v) => (.str k, v))]
  let t ← Yaml.write .message [details]
  log env s .verbose [.str t] []

/-- Ends the program after a failure, which is logged unless `quiet`. -/
def exit {α : Type} (env : Environment) (s : Settings) (code : Value) (quiet : Bool) : Run α := do
  if !quiet then log env s .critical [.str (text "Catastrophic Failure!")] []
  Run.stop (.exit code)

/-- Writes a value as a document to standard output. -/
def print (v : Value) : Run Unit := do
  let t ← Yaml.write .document [v]
  Run.write ⟨t, [], []⟩

end Log

end AnnotationCodec
