import AnnotationCodec.Number.Integer

/-!
Why a text is not JSON. An error is found at a place in the text, which is told by how many code points
are left there.
-/

namespace AnnotationCodec.Json

/-- What is wrong at a place of the text. -/
inductive Problem
  | expectingValue
  | unterminatedString
  | controlCharacter
  | invalidEscape
  | invalidUnicodeEscape
  | expectingName
  | expectingColon
  | expectingComma
  | extraData
  | byteOrderMark
  deriving DecidableEq, Repr

inductive Error
  /-- A problem where `left` code points are left. -/
  | malformed (problem : Problem) (left : Nat)
  | tooManyDigits (count : Nat)
  | tooDeep
  deriving DecidableEq, Repr

namespace Problem

def label : Problem → Text
  | .expectingValue => text "Expecting value"
  | .unterminatedString => text "Unterminated string starting at"
  | .controlCharacter => text "Invalid control character at"
  | .invalidEscape => text "Invalid \\escape"
  | .invalidUnicodeEscape => text "Invalid \\uXXXX escape"
  | .expectingName => text "Expecting property name enclosed in double quotes"
  | .expectingColon => text "Expecting ':' delimiter"
  | .expectingComma => text "Expecting ',' delimiter"
  | .extraData => text "Extra data"
  | .byteOrderMark => text "Unexpected UTF-8 BOM (decode using utf-8-sig)"

end Problem

/-- The line and the column, both from one, at `position` of a text. -/
def lineColumn (t : Text) (position : Nat) : Nat × Nat :=
  let before := t.take position
  (List.count ('\n' : CodePoint) before + 1, (before.reverse.takeWhile fun (c : CodePoint) => c ≠ '\n').length + 1)

/-- The message of a problem in the text `t`. -/
def Problem.message (p : Problem) (left : Nat) (t : Text) : Text :=
  let position := t.length - left
  let (line, column) := lineColumn t position
  p.label ++ text ": line " ++ Decimal.digits line ++ text " column " ++ Decimal.digits column ++
    text " (char " ++ Decimal.digits position ++ text ")"

end AnnotationCodec.Json
