import AnnotationCodec.Number.Integer

/-!
Writing JSON texts of the three shapes. All but quotes, backslashes and control characters stands for
itself.
-/

namespace AnnotationCodec.Json

/-- One code point between the quotes of a string. -/
def escape (c : CodePoint) : Text :=
  if c = '"' then text "\\\""
  else if c = '\\' then text "\\\\"
  else if c = '\x08' then text "\\b"
  else if c = '\x0C' then text "\\f"
  else if c = '\n' then text "\\n"
  else if c = '\r' then text "\\r"
  else if c = '\t' then text "\\t"
  else if c.val < 0x20 then text "\\u" ++ Text.hex false 4 c.val
  else [c]

def writeString (t : Text) : Text :=
  text "\"" ++ t.flatMap escape ++ text "\""

def writeStrings (ts : List Text) : Text :=
  text "[" ++ Text.joinWith (text ", ") (ts.map writeString) ++ text "]"

end AnnotationCodec.Json
