import AnnotationCodec.Json.Error
import AnnotationCodec.Value.Display

/-!
Why an operation fails. Each cause is a constructor; its wording is in `Failure.message?`. A message that
would show an integer beyond the digit limit cannot be written, and `Failure.raised` puts that cause in the
place of the first one.
-/

namespace AnnotationCodec

/-- Why a value cannot be stored in a shape, or a stored text cannot be read as one. -/
inductive Reason
  /-- The value has another shape. -/
  | shape (expected : Shape) (found : Value)
  /-- An item of a list is no text. -/
  | item (index : Nat) (found : Value)
  /-- What is stored is no text at all. -/
  | notText (found : Kind)
  /-- The stored text is not JSON. -/
  | json (stored : Text) (problem : Json.Problem) (left : Nat)
  /-- The stored text holds an integer with too many digits. -/
  | digits (count : Nat)
  /-- The value is an integer with too many digits. -/
  | unwritable

/-- Why files cannot be opened. -/
inductive FileError
  | missing
  | directory
  /-- The path leads on behind a file. -/
  | noDirectory
  deriving DecidableEq, Repr

/-- The parts of reading and writing a document that can fail. -/
inductive DocumentError
  /-- A character that no document may hold. -/
  | character
  /-- No token can be read. -/
  | token
  /-- The tokens form no document. -/
  | grammar
  /-- An anchor or the number of documents is wrong. -/
  | composition
  /-- A node has no value. -/
  | node
  /-- A value has no written form. -/
  | representation
  deriving DecidableEq, Repr

inductive Failure
  | encoding (key : Value) (reason : Reason)
  | decoding (key : Value) (reason : Reason)
  | missingDescriptor
  | wrongDescriptor (expected : Family) (found : Kind)
  | nullValue (key : Value)
  | unknownShape (shape : Value)
  | invalidDomain (domain : Value)
  | unknownFamily (family : Value)
  | unknownField (family : Family) (field : Value)
  | invalidManifest (found : Kind)
  | invalidConfigFile (path : Text)
  | missingConfigValue (key : Value)
  | ambiguousSetting
  | nothingToSave
  | invalidTruth (value : Text)
  | calendar (e : CalendarError)
  | integerText (e : Integer.ReadError)
  | floatText (literal : Text)
  | codePointRange
  /-- An integer with too many digits was to be written. -/
  | unwritable
  /-- A word that is no key of a fixed table. -/
  | unknownWord (word : Text)
  /-- A value was asked for something that values of its type do not have. -/
  | noAttribute
  /-- A value was used in a way that values of its type do not allow. -/
  | unsupported
  | indexRange
  | overflow
  | tooDeep
  | document (e : DocumentError)
  | file (e : FileError)

namespace Integer.WriteError

def message : Integer.WriteError → Text
  | .tooManyDigits =>
    text "Exceeds the limit (4300 digits) for integer string conversion; "
      ++ text "use sys.set_int_max_str_digits() to increase the limit"

end Integer.WriteError

namespace Integer.ReadError

def digitsMessage (count : Nat) : Text :=
  text "Exceeds the limit (4300 digits) for integer string conversion: value has " ++ Decimal.digits count
    ++ text " digits; use sys.set_int_max_str_digits() to increase the limit"

def message : Integer.ReadError → Text
  | .tooManyDigits count => digitsMessage count
  | .malformed base t =>
    text "invalid literal for int() with base " ++ Decimal.digits base ++ text ": " ++ t.literal

end Integer.ReadError

namespace Shape

/-- A value of the shape, with its article. -/
def phrase : Shape → Text
  | .string => text "a string"
  | .list => text "a list of strings"
  | .integer => text "an integer"

end Shape

namespace Value

/-- How messages describe a value of the wrong shape. -/
def describe : Value → Except Integer.WriteError Text
  | .null => .ok (text "null")
  | .list _ => .ok (text "a list")
  | .map _ => .ok (text "an object")
  | v => v.literal.map fun t => v.kind.label ++ text " (" ++ t ++ text ")"

end Value

namespace Reason

def message : Reason → Except Integer.WriteError Text
  | .shape expected found =>
    found.describe.map fun t => text "expected " ++ expected.phrase ++ text ", got " ++ t
  | .item index found =>
    found.describe.map fun t =>
      text "expected a list of strings, item " ++ Decimal.digits index ++ text " is " ++ t
  | .notText found => .ok (text "expected a string annotation value, got " ++ found.label)
  | .json stored problem left => .ok (text "invalid json: " ++ problem.message left stored)
  | .digits count => .ok (text "invalid json: " ++ Integer.ReadError.digitsMessage count)
  | .unwritable => .ok (Integer.WriteError.message .tooManyDigits)

end Reason

namespace Failure

/-- The sentence about a key and what is wrong with its value. -/
def keyed (start : Text) (key : Value) (reason : Reason) : Except Integer.WriteError (Option Text) := do
  let r ← reason.message
  let k ← key.display
  return some (start ++ text " for '" ++ k ++ text "': " ++ r)

/-- A sentence that ends with a value. -/
def about (start : Text) (v : Value) : Except Integer.WriteError (Option Text) :=
  v.display.map fun t => some (start ++ t)

/-- The wording of a failure; failures of general operations have none of their own. -/
def message? : Failure → Except Integer.WriteError (Option Text)
  | .encoding key reason => keyed (text "Illegal annotation value") key reason
  | .decoding key reason => keyed (text "Illegally annotated resource") key reason
  | .missingDescriptor =>
    .ok (some (text "Every resource deployed via the annotater must be assigned a moniker"))
  | .wrongDescriptor expected found =>
    .ok (some (text "expected " ++ expected.typeName ++ text " to store " ++ expected.label
      ++ text " annotations, got " ++ found.label))
  | .nullValue key => about (text "null values are not encoded: ") key
  | .unknownShape shape => about (text "unknown value shape: ") shape
  | .invalidDomain domain => about (text "invalid annotation domain: ") domain
  | .unknownFamily family => about (text "unknown annotation family: ") family
  | .unknownField family field => about (family.label ++ text "/") field
  | .invalidManifest found =>
    .ok (some (text "invalid manifest, expected a mapping: " ++ found.label))
  | .invalidConfigFile path =>
    .ok (some (text "invalid config file, expected a mapping: " ++ path))
  | .missingConfigValue key => about (text "config value is required for ") key
  | .ambiguousSetting =>
    .ok (some (text "Invalid arguments: must specify both key and value args and not specify values arg"))
  | .nothingToSave => .ok (some (text "Invalid arguments: no values to save"))
  | .invalidTruth value => .ok (some (text "invalid truth value: " ++ value))
  | .calendar e => .ok (some e.message)
  | .integerText e => .ok (some e.message)
  | .floatText literal => .ok (some (text "could not convert string to float: " ++ literal.literal))
  | .codePointRange => .ok (some (text "chr() arg not in range(0x110000)"))
  | .unwritable => .ok (some (Integer.WriteError.message .tooManyDigits))
  | .unknownWord word => .ok (some word)
  | .noAttribute | .unsupported | .indexRange | .overflow | .tooDeep | .document _ | .file _ => .ok none

/-- The failure that is met when `f` is to be reported: itself, if its message can be written. -/
def raised (f : Failure) : Failure :=
  match f.message? with
  | .ok _ => f
  | .error .tooManyDigits => .unwritable

end Failure

end AnnotationCodec
